import SonicChain.AuthorAndValidate

/-! # The life of a node

A node is spawned, takes calls one after the other, and is told to terminate in the end
(`Life`).  The calls overlap: the master returns as soon as it has broadcast `TaskDone`,
and has begun the next call while a worker still polls for it.  Two arguments run side by
side over the whole life.

* **What comes is expected.**  Between any two calls the executor is `Ready`, with at most
  a `TaskDone` on its way to each worker, and within a call the run keeps to the protocol
  of the call.  `Stage` puts these together, and a node that has been told to terminate is
  `Leaving`.  At every stage each queue holds what its reader expects
  (`Stage.disciplined`).
* **No command is slept through.**  That is a matter of the tokens alone (`Wakeful`),
  whatever the call: the master wakes a worker before it gives a command, a worker uses up
  its token on the way to the queue, and no second command is given before the first is
  taken.  Tokens left over from earlier tasks do no harm, for a worker that is awake too
  early waits at its queue.

The first needs that the body of no call panics, since a worker that has panicked
answers no more.
-/

namespace SonicChain
open Worker

section
variable [Ed25519]

/-! ## Tokens and commands

A command is a message that a parked worker has to be woken for.  The messages inside a
task need no token: a worker at a task does not park.
-/

/-- The messages that a worker waits for when it has nothing to do. -/
def MessagePayload.isCommand : MessagePayload → Bool
  | .task _ => true
  | .terminate => true
  | _ => false

/-- The master wakes the worker before it sends a command to it. -/
def Roused (w : ThreadId) : List Master.Effect → Prop
  | [] => True
  | .unpark u :: todo => u = w ∨ Roused w todo
  | .send u payload :: todo => (u = w → payload.isCommand = false) ∧ Roused w todo
  | .pushOrphan _ :: todo => Roused w todo
  | .panic _ :: todo => Roused w todo

theorem Roused.append_left {w : ThreadId} {todo todo' : List Master.Effect} (h : Roused w todo)
    (hunpark : .unpark w ∈ todo) : Roused w (todo ++ todo') := by
  induction todo with
  | nil => cases hunpark
  | cons effect todo ih =>
    cases effect with
    | unpark u =>
      by_cases hu : u = w
      · exact .inl hu
      · refine .inr (ih (h.resolve_left hu) ((List.mem_cons.mp hunpark).resolve_left fun heq => hu ?_))
        cases heq
        rfl
    | send u payload => exact ⟨h.1, ih h.2 ((List.mem_cons.mp hunpark).resolve_left fun heq => by cases heq)⟩
    | pushOrphan tx => exact ih h ((List.mem_cons.mp hunpark).resolve_left fun heq => by cases heq)
    | panic why => exact ih h ((List.mem_cons.mp hunpark).resolve_left fun heq => by cases heq)

theorem roused_unparkAll (w : ThreadId) (workers : List ThreadId) : Roused w (Master.unparkAll workers) := by
  induction workers with
  | nil => trivial
  | cons u workers ih => exact .inr ih

theorem roused_of_noCommand {w : ThreadId} {todo : List Master.Effect}
    (h : ∀ payload ∈ todo.filterMap (Master.Effect.messageTo w), payload.isCommand = false) :
    Roused w todo := by
  induction todo with
  | nil => trivial
  | cons effect todo ih =>
    rw [filterMap_cons_toList] at h
    have hrest := ih fun payload hp => h payload (List.mem_append_right _ hp)
    cases effect with
    | unpark u => exact .inr hrest
    | send u payload =>
      refine ⟨fun hu => h payload (List.mem_append_left _ ?_), hrest⟩
      simp [Master.Effect.messageTo, hu]
    | pushOrphan tx => exact hrest
    | panic why => exact hrest

/-- At most one command is on its way to the worker, and it will not be slept through: the
worker has its token, or waits at its queue, or is still to be woken.  That there is at
most one is part of the invariant: a worker that takes a command parks again after it, and
would need a second token for a second one. -/
structure Wakeful (w : ThreadId) (wk : Worker) (todo : List Master.Effect) : Prop where
  once : (wk.fromMaster ++ todo.filterMap (Master.Effect.messageTo w)).countP
    MessagePayload.isCommand ≤ 1
  awake : wk.token = true ∨ wk.pc = .recvTask ∨ (∃ why, wk.pc = .panicked why) ∨
    (∀ payload ∈ wk.fromMaster, payload.isCommand = false) ∧ Roused w todo

/-- The worker neither waits for a command nor has panicked. -/
def Worker.Pc.AtWork : Pc → Prop
  | .recvTask => False
  | .panicked _ => False
  | _ => True

/-- What a step of a worker does to its token and its queue: it uses the token up to leave
`park`, it takes a command, it panics, or it goes on with its work, where it may take other
messages. -/
inductive Worker.Rests (wk : Worker) (wk' : Worker) : Prop
  | park (hpc : wk.pc = .park) (hpc' : wk'.pc = .recvTask) (hqueue : wk'.fromMaster = wk.fromMaster)
  | command {payload : MessagePayload} (hcommand : payload.isCommand = true)
    (hqueue : wk.fromMaster = payload :: wk'.fromMaster)
  | panicked {why : Panic} (hpc' : wk'.pc = .panicked why) (hqueue : wk'.fromMaster = wk.fromMaster)
  | works (hpc : wk.pc.AtWork) (htoken : wk'.token = wk.token)
    (hqueue : wk'.fromMaster <:+ wk.fromMaster)

section
variable {w : ThreadId} {wk wk' : Worker} {state : StateMap} {m : Move}
  {todo : List Master.Effect}

theorem Worker.Step.rests (h : Step w wk state m) : wk.Rests m.worker := by
  have works : ∀ {m : Move}, wk.pc.AtWork → m.worker.token = wk.token →
      m.worker.fromMaster = wk.fromMaster → wk.Rests m.worker := by
    intro m hpc htoken hqueue
    exact .works hpc htoken (by rw [hqueue])
  cases h with
  | park hpc => exact .park hpc rfl rfl
  | takeAuthoring hpc hq | takeValidating hpc hq | takeTerminate hpc hq => exact .command rfl hq
  | unexpected | unexpectedFromOthers | commitPanic | validateRefused | mistagged =>
    exact .panicked rfl rfl
  | setup hpc hq | takeTransaction hpc hq | distributionDone hpc hq | taskDone hpc hq
  | takeForValidation hpc hq | validationDone hpc hq =>
    refine .works (by rw [hpc]; trivial) rfl ?_
    rw [hq]
    exact List.suffix_cons ..
  | access hpc hkey =>
    have hwork : wk.pc.AtWork := by rw [hpc]; trivial
    unfold Worker.access
    split
    · exact works hwork rfl rfl
    · split
      · exact works hwork rfl rfl
      · exact works hwork rfl rfl
  | accessRecheck hpc hkey =>
    have hwork : wk.pc.AtWork := by rw [hpc]; trivial
    unfold Worker.accessRecheck
    split
    · exact works hwork rfl rfl
    · exact .panicked rfl rfl
  | settle hres =>
    have hwork : wk.pc.AtWork := by
      generalize wk.pc = pc at hres
      cases hres <;> trivial
    unfold Worker.executeOrForward
    dsimp only
    repeat' split
    all_goals exact works hwork rfl rfl
  | _ hpc => exact works (by rw [hpc]; trivial) rfl rfl

/-- **A worker does not sleep through a command.** -/
theorem Wakeful.worker_step (h : Wakeful w wk todo) (hstep : wk.Rests wk') : Wakeful w wk' todo := by
  obtain ⟨honce, hawake⟩ := h
  cases hstep with
  | park hpc hpc' hqueue => exact ⟨by rw [hqueue]; exact honce, .inr (.inl hpc')⟩
  | command hcommand hqueue =>
    -- It was the only command.
    rw [hqueue, List.cons_append, List.countP_cons_of_pos hcommand] at honce
    have hnone : (wk'.fromMaster ++ todo.filterMap (Master.Effect.messageTo w)).countP
        MessagePayload.isCommand = 0 := by omega
    refine ⟨by omega, .inr (.inr (.inr ⟨fun payload hp => ?_, roused_of_noCommand fun payload hp => ?_⟩))⟩
    · have := List.countP_eq_zero.mp hnone payload (List.mem_append_left _ hp)
      simpa using this
    · have := List.countP_eq_zero.mp hnone payload (List.mem_append_right _ hp)
      simpa using this
  | panicked hpc' hqueue =>
    exact ⟨by rw [hqueue]; exact honce, .inr (.inr (.inl ⟨_, hpc'⟩))⟩
  | works hpc htoken hqueue =>
    refine ⟨le_trans (List.Sublist.countP_le ?_) honce, ?_⟩
    · exact hqueue.sublist.append_right _
    · rcases hawake with htoken' | hpc' | ⟨why, hpc'⟩ | ⟨hnone, hroused⟩
      · exact .inl (htoken.trans htoken')
      · rw [hpc'] at hpc
        exact hpc.elim
      · rw [hpc'] at hpc
        exact hpc.elim
      · exact .inr (.inr (.inr ⟨fun payload hp => hnone payload (hqueue.subset hp), hroused⟩))

end

section
variable {exec : Executor} {s s' : System} {w : ThreadId}

/-- No command is slept through. -/
def System.Awake (exec : Executor) (s : System) : Prop :=
  ∀ w ∈ exec.workers, Wakeful w (s.worker w) s.master.todo

theorem System.Awake.sleep (h : s.Awake exec) : ∀ w ∈ exec.workers, (s.worker w).pc = .park →
    (s.worker w).token = false → ∀ payload ∈ (s.worker w).fromMaster, payload.isCommand = false := by
  intro w hw hpc htoken
  rcases (h w hw).awake with h | h | ⟨why, h⟩ | ⟨h, -⟩
  · cases htoken.symm.trans h
  · cases hpc.symm.trans h
  · cases hpc.symm.trans h
  · exact h

theorem Wakeful.congr {wk wk' : Worker} {todo : List Master.Effect} (h : Wakeful w wk todo)
    (hpc : wk'.pc = wk.pc) (htoken : wk'.token = wk.token)
    (hqueue : wk'.fromMaster = wk.fromMaster) : Wakeful w wk' todo := by
  obtain ⟨honce, hawake⟩ := h
  rw [← hqueue] at honce
  rw [← hpc, ← htoken, ← hqueue] at hawake
  exact ⟨honce, hawake⟩

/-- The master wakes a worker, sends to it, or does neither. -/
theorem Wakeful.perform {effect : Master.Effect} {todo : List Master.Effect}
    (h : Wakeful w (s.worker w) (effect :: todo)) :
    Wakeful w ((s.perform effect todo).worker w) (s.perform effect todo).master.todo := by
  obtain ⟨honce, hawake⟩ := h
  cases effect with
  | unpark u =>
    show Wakeful w (Function.update s.worker u { s.worker u with token := true } w) todo
    by_cases hu : w = u
    · subst hu
      rw [Function.update_self]
      exact ⟨honce, .inl rfl⟩
    · rw [Function.update_of_ne hu]
      refine ⟨honce, hawake.imp_right fun h => h.imp_right fun h => h.imp_right ?_⟩
      intro hasleep
      exact ⟨hasleep.1, hasleep.2.resolve_left (Ne.symm hu)⟩
  | send u payload =>
    show Wakeful w (Function.update s.worker u
      { s.worker u with fromMaster := (s.worker u).fromMaster ++ [payload] } w) todo
    by_cases hu : w = u
    · subst hu
      rw [Function.update_self]
      refine ⟨?_, hawake.imp_right fun h => h.imp_right fun h => h.imp_right ?_⟩
      · simpa [Master.Effect.messageTo] using honce
      · rintro ⟨hnone, hcommand, hroused⟩
        refine ⟨fun p hp => ?_, hroused⟩
        rcases List.mem_append.mp hp with hp | hp
        · exact hnone p hp
        · rw [List.mem_singleton.mp hp]
          exact hcommand rfl
    · rw [Function.update_of_ne hu]
      refine ⟨?_, hawake.imp_right fun h => h.imp_right fun h => h.imp_right ?_⟩
      · simpa [Master.Effect.messageTo, Ne.symm hu] using honce
      · intro hasleep
        exact ⟨hasleep.1, hasleep.2.2⟩
  | pushOrphan tx => exact ⟨honce, hawake⟩
  | panic why =>
    show Wakeful w (s.worker w) []
    refine ⟨le_trans (List.Sublist.countP_le ?_) honce, ?_⟩
    · exact List.Sublist.append_left (List.nil_sublist _) _
    · exact hawake.imp_right fun h => h.imp_right fun h => h.imp_right fun h => ⟨h.1, trivial⟩

/-- The messages of a task are no commands. -/
theorem distributeEffects_noCommand (workers : List ThreadId) (pool : Pool) (w : ThreadId) :
    ∀ payload ∈ (Master.distributeEffects workers pool).filterMap (Master.Effect.messageTo w),
      payload.isCommand = false := by
  intro payload hp
  obtain ⟨effect, he, hmessage⟩ := List.mem_filterMap.mp hp
  unfold Master.distributeEffects at he
  split at he
  · rcases List.mem_append.mp he with he | he
    · obtain ⟨a, -, rfl⟩ := List.mem_map.mp he
      unfold Master.sendTo at hmessage
      split at hmessage
      · rw [Master.Effect.messageTo] at hmessage
        split at hmessage
        · obtain rfl := Option.some.inj hmessage
          rfl
        · cases hmessage
      · cases hmessage
    · obtain ⟨u, -, rfl⟩ := List.mem_map.mp he
      rw [Master.Effect.messageTo] at hmessage
      split at hmessage
      · obtain rfl := Option.some.inj hmessage
        rfl
      · cases hmessage
  · rw [List.mem_singleton.mp he] at hmessage
    cases hmessage

theorem broadcast_noCommand {payload : MessagePayload} (h : payload.isCommand = false)
    (workers : List ThreadId) (w : ThreadId) :
    ∀ p ∈ (Master.broadcast workers payload).filterMap (Master.Effect.messageTo w),
      p.isCommand = false := by
  intro p hp
  obtain ⟨effect, he, hmessage⟩ := List.mem_filterMap.mp hp
  obtain ⟨u, -, rfl⟩ := List.mem_map.mp he
  rw [Master.Effect.messageTo] at hmessage
  split at hmessage
  · obtain rfl := Option.some.inj hmessage
    exact h
  · cases hmessage

/-- In its own program the master gives no command. -/
theorem System.masterStep_noCommand (htodo : s.master.todo = []) (h : s.masterStep exec = some s')
    (w : ThreadId) : s'.worker = s.worker ∧
      ∀ payload ∈ s'.master.todo.filterMap (Master.Effect.messageTo w), payload.isCommand = false := by
  have hnone : ∀ payload ∈ s.master.todo.filterMap (Master.Effect.messageTo w),
      payload.isCommand = false := by
    rw [htodo]
    intro payload hp
    cases hp
  unfold masterStep at h
  split at h
  · rename_i hcons
    cases htodo.symm.trans hcons
  · repeat' split at h
    all_goals cases h
    all_goals first
      | exact ⟨rfl, hnone⟩
      | exact ⟨rfl, distributeEffects_noCommand _ _ w⟩
      | exact ⟨rfl, broadcast_noCommand rfl _ w⟩
      | (rename_i return_to _; cases return_to <;> exact ⟨rfl, hnone⟩)

/-- The master leaves the tokens and queues alone when it receives. -/
theorem System.collect_rests {v : ThreadId} (h : s.collect v = some s') (w : ThreadId) :
    (s'.worker w).pc = (s.worker w).pc ∧ (s'.worker w).token = (s.worker w).token ∧
      (s'.worker w).fromMaster = (s.worker w).fromMaster ∧ s'.master.todo = s.master.todo := by
  have hreceived : ∀ rest, (Function.update s.worker v { s.worker v with toMaster := rest } w).pc =
        (s.worker w).pc ∧
      (Function.update s.worker v { s.worker v with toMaster := rest } w).token =
        (s.worker w).token ∧
      (Function.update s.worker v { s.worker v with toMaster := rest } w).fromMaster =
        (s.worker w).fromMaster := by
    intro rest
    by_cases hw : w = v
    · subst hw
      rw [Function.update_self]
      exact ⟨rfl, rfl, rfl⟩
    · rw [Function.update_of_ne hw]
      exact ⟨rfl, rfl, rfl⟩
  unfold collect at h
  split at h
  · rename_i htodo _ _
    rw [htodo]
    dsimp only at h
    split at h <;> obtain rfl := Option.some.inj h <;>
      exact ⟨(hreceived _).1, (hreceived _).2.1, (hreceived _).2.2, htodo⟩
  · rename_i htodo _ _
    rw [htodo]
    dsimp only at h
    split at h <;> obtain rfl := Option.some.inj h <;>
      exact ⟨(hreceived _).1, (hreceived _).2.1, (hreceived _).2.2, htodo⟩
  · cases h

/-- **No step of a thread makes a worker sleep through a command.** -/
theorem System.Awake.step (h : s.Awake exec) (hs : s.Threads exec s') : s'.Awake exec := by
  intro w hw
  have hwakeful := h w hw
  cases hs with
  | @worker v m hv hstep =>
    have hfields : ∀ (worker : ThreadId → Worker), (deliver v m.forward worker w).pc = (worker w).pc ∧
        (deliver v m.forward worker w).token = (worker w).token ∧
        (deliver v m.forward worker w).fromMaster = (worker w).fromMaster := by
      intro worker
      cases m.forward with
      | none => exact ⟨rfl, rfl, rfl⟩
      | some message =>
        by_cases hwt : w = message.1
        · subst hwt; simp [deliver]
        · simp [deliver, hwt]
    obtain ⟨hpc, htoken, hqueue⟩ := hfields (Function.update s.worker v m.worker)
    refine Wakeful.congr ?_ hpc htoken hqueue
    by_cases hwv : w = v
    · subst hwv
      rw [Function.update_self]
      exact hwakeful.worker_step hstep.rests
    · rw [Function.update_of_ne hwv]
      exact hwakeful
  | master hstep =>
    cases htodo : s.master.todo with
    | cons effect todo =>
      rw [System.masterStep, htodo] at hstep
      obtain rfl := Option.some.inj hstep
      rw [htodo] at hwakeful
      exact hwakeful.perform
    | nil =>
      obtain ⟨hworker, hnone⟩ := masterStep_noCommand htodo hstep w
      obtain ⟨honce, hawake⟩ := hwakeful
      rw [htodo, List.filterMap_nil, List.append_nil] at honce
      have hcount : (s'.master.todo.filterMap (Master.Effect.messageTo w)).countP
          MessagePayload.isCommand = 0 := by
        refine List.countP_eq_zero.mpr fun payload hp => ?_
        simp [hnone payload hp]
      rw [hworker]
      refine ⟨?_, hawake.imp_right fun h => h.imp_right fun h => h.imp_right fun h => ⟨h.1, ?_⟩⟩
      · rw [List.countP_append]
        omega
      · exact roused_of_noCommand hnone
  | collect hv hstep =>
    obtain ⟨hpc, htoken, hqueue, htodo⟩ := collect_rests hstep w
    rw [htodo]
    exact hwakeful.congr hpc htoken hqueue

end

/-! ## Termination -/

/-- A worker that has been told to terminate, once it has nothing else to do. -/
inductive Worker.Leaving (workers : List ThreadId) : Pc → List ThreadId → List MessagePayload → Prop
  | setup (toOthers : List ThreadId) :
    Leaving workers .waitFinalizeSetup toOthers [.finalizeSetup workers, .terminate]
  | draining {pc : Pc} (hpc : pc = .pollMaster ∨ pc = .pollOthers) :
    Leaving workers pc workers [.taskDone, .terminate]
  | waiting {pc : Pc} (hpc : pc = .park ∨ pc = .recvTask) : Leaving workers pc workers [.terminate]
  | terminated : Leaving workers .terminated workers []

/-- The node terminates: `Terminate` is on its way to each worker, behind what is left of
the last task, and there is nothing else for any of them to do. -/
structure System.Leaving (exec : Executor) (s : System) : Prop where
  workers : ∀ w ∈ exec.workers, Worker.Leaving exec.workers (s.worker w).pc (s.worker w).toOthers
    ((s.worker w).fromMaster ++ s.master.todo.filterMap (Master.Effect.messageTo w))
  fromOthers : ∀ w ∈ exec.workers, ∀ v, (s.worker w).fromOthers v = []
  toMaster : ∀ w ∈ exec.workers, (s.worker w).toMaster = []
  todo : ∀ effect ∈ s.master.todo, effect.OfValidation
  pc : s.master.pc = .idle

theorem Worker.Ready.leaving {workers toOthers : List ThreadId} {pc : Pc} {inbox : List MessagePayload}
    (h : Ready workers pc toOthers inbox) :
    Worker.Leaving workers pc toOthers (inbox ++ [.terminate]) := by
  cases h with
  | setup => exact .setup toOthers
  | park => exact .waiting (.inl rfl)
  | recvTask => exact .waiting (.inr rfl)
  | draining hpc => exact .draining hpc

section
variable {exec : Executor} {s s' : System} {w : ThreadId}

theorem Worker.Leaving.cases {workers toOthers : List ThreadId} {pc : Pc}
    {inbox : List MessagePayload} (h : Worker.Leaving workers pc toOthers inbox) :
    pc = .waitFinalizeSetup ∧ inbox = [.finalizeSetup workers, .terminate] ∨
      toOthers = workers ∧
        (inbox = [.taskDone, .terminate] ∧ (pc = .pollMaster ∨ pc = .pollOthers) ∨
          inbox = [.terminate] ∧ (pc = .park ∨ pc = .recvTask) ∨ inbox = [] ∧ pc = .terminated) := by
  cases h with
  | setup => exact .inl ⟨rfl, rfl⟩
  | draining hpc => exact .inr ⟨rfl, .inl ⟨rfl, hpc⟩⟩
  | waiting hpc => exact .inr ⟨rfl, .inr (.inl ⟨rfl, hpc⟩)⟩
  | terminated => exact .inr ⟨rfl, .inr (.inr ⟨rfl, rfl⟩)⟩

/-- The control points that it passes. -/
theorem Worker.Leaving.mem {workers toOthers : List ThreadId} {pc : Pc}
    {inbox : List MessagePayload} (h : Worker.Leaving workers pc toOthers inbox) :
    pc ∈ [.waitFinalizeSetup, .pollMaster, .pollOthers, .park, .recvTask, .terminated] := by
  cases h with
  | draining hpc | waiting hpc => rcases hpc with rfl | rfl <;> simp
  | _ => simp

theorem Worker.Leaving.not_transaction {workers toOthers : List ThreadId} {pc : Pc}
    {inbox : List MessagePayload} {tx : Transaction}
    (h : Worker.Leaving workers pc toOthers inbox) : .transaction tx ∉ inbox := by
  cases h <;> simp

theorem Worker.Leaving.accepts {workers toOthers : List ThreadId} {pc : Pc}
    {inbox rest : List MessagePayload} {payload : MessagePayload}
    (h : Worker.Leaving workers pc toOthers inbox) (hpc : pc.Receives)
    (hinbox : inbox = payload :: rest) : pc.Accepts payload := by
  cases h with
  | setup => cases hinbox; trivial
  | draining hpc' =>
    rcases hpc' with rfl | rfl
    · cases hinbox; trivial
    · exact hpc.elim
  | waiting hpc' =>
    rcases hpc' with rfl | rfl
    · exact hpc.elim
    · cases hinbox; trivial
  | terminated => exact hpc.elim

/-- **A worker on its way out touches nothing.** -/
theorem Worker.Leaving.step {workers : List ThreadId} {wk : Worker} {state : StateMap} {m : Move}
    {pending : List MessagePayload}
    (h : Worker.Leaving workers wk.pc wk.toOthers (wk.fromMaster ++ pending))
    (hothers : ∀ v, wk.fromOthers v = []) (hstep : Step w wk state m) :
    m = quiet m.worker state ∧
      Worker.Leaving workers m.worker.pc m.worker.toOthers (m.worker.fromMaster ++ pending) ∧
      m.worker.fromOthers = wk.fromOthers ∧ m.worker.toMaster = wk.toMaster := by
  have hcases := h.cases
  cases hstep with
  | setup hpc hq =>
    rcases hcases with ⟨-, hinbox⟩ | ⟨-, ⟨-, hpc' | hpc'⟩ | ⟨-, hpc' | hpc'⟩ | ⟨-, hpc'⟩⟩
    · rw [hq] at hinbox
      obtain ⟨hdata, hrest⟩ := queue_eq_cons hinbox
      cases hdata
      refine ⟨rfl, ?_, rfl, rfl⟩
      dsimp only [quiet]
      rw [hrest]
      exact .waiting (.inl rfl)
    all_goals cases hpc.symm.trans hpc'
  | taskDone hpc hq =>
    rcases hcases with ⟨hpc', -⟩ | ⟨hto, ⟨hinbox, -⟩ | ⟨-, hpc' | hpc'⟩ | ⟨-, hpc'⟩⟩
    · cases hpc.symm.trans hpc'
    · rw [hq] at hinbox
      refine ⟨rfl, ?_, rfl, rfl⟩
      dsimp only [quiet]
      rw [(queue_eq_cons hinbox).2, hto]
      exact .waiting (.inl rfl)
    all_goals cases hpc.symm.trans hpc'
  | pollMaster hpc =>
    rcases hcases with ⟨hpc', -⟩ | ⟨hto, ⟨hinbox, -⟩ | ⟨-, hpc' | hpc'⟩ | ⟨-, hpc'⟩⟩
    · cases hpc.symm.trans hpc'
    · refine ⟨rfl, ?_, rfl, rfl⟩
      dsimp only [quiet]
      rw [hinbox, hto]
      exact .draining (.inr rfl)
    all_goals cases hpc.symm.trans hpc'
  | pollOthers hpc =>
    rcases hcases with ⟨hpc', -⟩ | ⟨hto, ⟨hinbox, -⟩ | ⟨-, hpc' | hpc'⟩ | ⟨-, hpc'⟩⟩
    · cases hpc.symm.trans hpc'
    · refine ⟨rfl, ?_, rfl, rfl⟩
      dsimp only [quiet]
      rw [hinbox, hto]
      exact .draining (.inl rfl)
    all_goals cases hpc.symm.trans hpc'
  | park hpc =>
    rcases hcases with ⟨hpc', -⟩ | ⟨hto, ⟨-, hpc' | hpc'⟩ | ⟨hinbox, -⟩ | ⟨-, hpc'⟩⟩
    · cases hpc.symm.trans hpc'
    · cases hpc.symm.trans hpc'
    · cases hpc.symm.trans hpc'
    · refine ⟨rfl, ?_, rfl, rfl⟩
      dsimp only [quiet]
      rw [hinbox, hto]
      exact .waiting (.inr rfl)
    · cases hpc.symm.trans hpc'
  | takeTerminate hpc hq =>
    rcases hcases with ⟨hpc', -⟩ | ⟨hto, ⟨-, hpc' | hpc'⟩ | ⟨hinbox, -⟩ | ⟨-, hpc'⟩⟩
    · cases hpc.symm.trans hpc'
    · cases hpc.symm.trans hpc'
    · cases hpc.symm.trans hpc'
    · rw [hq] at hinbox
      refine ⟨rfl, ?_, rfl, rfl⟩
      dsimp only [quiet]
      rw [(queue_eq_cons hinbox).2, hto]
      exact .terminated
    · cases hpc.symm.trans hpc'
  | takeAuthoring hpc hq | takeValidating hpc hq =>
    exfalso
    rw [hq] at hcases
    rcases hcases with ⟨hpc', -⟩ | ⟨-, ⟨-, hpc' | hpc'⟩ | ⟨hinbox, -⟩ | ⟨-, hpc'⟩⟩
    · cases hpc.symm.trans hpc'
    · cases hpc.symm.trans hpc'
    · cases hpc.symm.trans hpc'
    · cases (queue_eq_cons hinbox).1
    · cases hpc.symm.trans hpc'
  | takeForwarded hpc hq | unexpectedFromOthers hpc hq =>
    rw [hothers] at hq
    cases hq
  | unexpected hreceives hq hpayload =>
    rw [hq] at h
    exact absurd (h.accepts hreceives rfl) hpayload
  | settle hres =>
    have hjob := hres.executes.job_eq
    have hmem := h.mem
    generalize wk.pc = pc at hjob hmem
    simp only [List.mem_cons, List.not_mem_nil, or_false] at hmem
    rcases hmem with rfl | rfl | rfl | rfl | rfl | rfl <;> cases hjob
  | _ hpc =>
    have hmem := h.mem
    rw [hpc] at hmem
    simp at hmem

/-- **A node that terminates goes on to do so.** -/
theorem System.Leaving.step (h : s.Leaving exec) (hs : s.Threads exec s') : s'.Leaving exec := by
  cases hs with
  | @worker w m hw hstep =>
    obtain ⟨hm, hleaving, hothers, hmaster⟩ :=
      (h.workers w hw).step (h.fromOthers w hw) hstep
    have hself : (s.applyMove w m).worker w = m.worker := by
      rw [hm]; simp [System.applyMove, System.deliver, quiet]
    have hother : ∀ v, v ≠ w → (s.applyMove w m).worker v = s.worker v := by
      intro v hv
      rw [hm]; simp [System.applyMove, System.deliver, quiet, hv]
    refine ⟨fun v hv => ?_, fun v hv => ?_, fun v hv => ?_, h.todo, h.pc⟩
    · by_cases hvw : v = w
      · subst hvw; rw [hself]; exact hleaving
      · rw [hother v hvw]; exact h.workers v hv
    · by_cases hvw : v = w
      · subst hvw; rw [hself, hothers]; exact h.fromOthers v hv
      · rw [hother v hvw]; exact h.fromOthers v hv
    · by_cases hvw : v = w
      · subst hvw; rw [hself, hmaster]; exact h.toMaster v hv
      · rw [hother v hvw]; exact h.toMaster v hv
  | master hstep =>
    cases htodo : s.master.todo with
    | nil =>
      exfalso
      rw [System.masterStep_of_callable htodo (by rw [h.pc]; rfl)] at hstep
      cases hstep
    | cons effect todo =>
      rw [System.masterStep, htodo] at hstep
      obtain rfl := Option.some.inj hstep
      have heffect : effect.OfValidation := h.todo effect (by rw [htodo]; exact List.mem_cons_self ..)
      have htodo' : (s.perform effect todo).master.todo = todo := by
        cases effect <;> first | rfl | exact heffect.elim
      refine ⟨fun w hw => ?_, fun w hw v => ?_, fun w hw => ?_, fun e he => ?_, ?_⟩
      · obtain ⟨hpc, hto, -, -, hqueue⟩ := System.perform_worker s effect todo w
        have hworker := h.workers w hw
        rw [htodo, filterMap_cons_toList, ← List.append_assoc] at hworker
        rw [hpc, hto, hqueue, htodo']
        exact hworker
      · rw [(System.perform_worker s effect todo w).2.2.1]
        exact h.fromOthers w hw v
      · rw [(System.perform_worker s effect todo w).2.2.2.1]
        exact h.toMaster w hw
      · rw [htodo'] at he
        exact h.todo e (by rw [htodo]; exact List.mem_cons_of_mem _ he)
      · cases effect <;> first | exact h.pc | exact heffect.elim
  | collect hw hstep =>
    exfalso
    unfold System.collect at hstep
    rw [h.pc] at hstep
    split at hstep
    · rename_i hpc _; cases hpc
    · rename_i hpc _; cases hpc
    · cases hstep

end

/-! ## Calls -/

/-- The transactions that a call is about. -/
def Call.transactions : Call → List Transaction
  | .authorBlock initialTransactions => initialTransactions
  | .validateBlock block => block
  | .clean => []
  | .applyState _ => []
  | .runTerminate => []

/-- The calls that are made on a node: it authors with clean pools, and validates blocks
that its workers, or workers with their ids, have authored.  A state that is applied has
taints of workers only: a transaction is forwarded to the owner of a key by its id. -/
inductive Call.Allowed (exec : Executor) (s : System) : Call → Prop
  | authorBlock {txs : List Transaction} {pool : Pool} (htxPool : s.master.txPool = [])
    (horphanPool : s.master.orphanPool = []) (htxs : Submitted txs)
    (hdist : Distributes exec txs pool) : Allowed exec s (.authorBlock txs)
  | validateBlock {block : List Transaction} (htagged : Tagged exec block) :
    Allowed exec s (.validateBlock block)
  | clean : Allowed exec s .clean
  | applyState {state : StateMap} (htaints : ∀ k o, state.taint k = some o → o ∈ exec.workers) :
    Allowed exec s (.applyState state)

/-- The states that a node comes to, with the transactions that its current call is about,
and whether it has been told to terminate.  Threads and calls take turns in any order, but
that a call is made when the one before has returned, and none after `run_terminate`. -/
inductive Life (exec : Executor) (s₀ : System) : Bool → List Transaction → System → Prop
  | spawned : Life exec s₀ false [] s₀
  | thread {terminates : Bool} {current : List Transaction} {s s' : System} {a : Action}
    (h : Life exec s₀ terminates current s) (ha : a.OfThread) (hs : s.step exec a = some s') :
    Life exec s₀ terminates current s'
  | call {current : List Transaction} {s s' : System} {c : Call} (h : Life exec s₀ false current s)
    (hc : c.Allowed exec s) (hs : s.step exec (.call c) = some s') :
    Life exec s₀ false c.transactions s'
  | terminate {current : List Transaction} {s s' : System} (h : Life exec s₀ false current s)
    (hs : s.step exec (.call .runTerminate) = some s') : Life exec s₀ true [] s'

/-- Where a node is in its life: the invariant of the whole life is that it is somewhere.
The states in which a call may be made are those of `Stage.ready`, whichever the stage. -/
inductive Stage (exec : Executor) : Bool → List Transaction → System → Prop
  | resting {current : List Transaction} {s : System} (h : s.Ready exec)
    (horphans : ∀ tx ∈ s.master.orphanPool, tx.tag = .orphan) : Stage exec false current s
  | authoring {s₀ s : System} {txs : List Transaction} {pool : Pool}
    (h : AuthorRun exec s₀ txs pool s) : Stage exec false txs s
  | validating {s₀ s : System} {block : List Transaction} (h : ValidateCall exec s₀ block s)
    (htagged : Tagged exec block) (hsound : ¬ s.DispatchPanicked exec) : Stage exec false block s
  | leaving {s : System} (h : s.Leaving exec) : Stage exec true [] s

section
variable {exec : Executor} {s₀ s s' : System} {current : List Transaction} {terminates : Bool}
  {a : Action} {c : Call}

/-- **Between calls the executor is ready.** -/
theorem Stage.ready (h : Stage exec false current s) (hcallable : System.Callable s.master.pc = true) :
    s.Ready exec ∧ ∀ tx ∈ s.master.orphanPool, tx.tag = .orphan := by
  cases h with
  | resting h horphans => exact ⟨h, horphans⟩
  | authoring h => exact h.ready_again hcallable
  | validating h htagged hsound => exact h.ready_again htagged hcallable

theorem Stage.thread (h : Stage exec terminates current s) (ha : a.OfThread)
    (hs : s.step exec a = some s') (hsound : ¬ s'.DispatchPanicked exec) :
    Stage exec terminates current s' := by
  have hthreads := System.threads_of_step ha hs
  cases h with
  | resting h horphans =>
    obtain ⟨hready, -, hmaster⟩ := h.step hthreads
    exact .resting hready (by rw [hmaster]; exact horphans)
  | authoring h =>
    obtain ⟨as, has, hexec⟩ := h.run
    refine .authoring ⟨h.ready, h.txPool, h.orphanPool, h.submitted, h.distributes, ?_, hsound⟩
    exact ⟨as ++ [a], List.forall_mem_append.mpr ⟨has, List.forall_mem_singleton.mpr ha⟩,
      Transition.exec_concat hexec hs⟩
  | validating h htagged _ =>
    obtain ⟨as, has, hexec⟩ := h.run
    refine .validating ⟨h.ready, h.orphanPool, ?_⟩ htagged hsound
    exact ⟨as ++ [a], List.forall_mem_append.mpr ⟨has, List.forall_mem_singleton.mpr ha⟩,
      Transition.exec_concat hexec hs⟩
  | leaving h => exact .leaving (h.step hthreads)

theorem System.begin_worker (s : System) (c : Call) : (s.begin exec c).worker = s.worker := by
  cases c with
  | authorBlock txs =>
    rw [begin]
    cases s.master.txPool.pushBatch txs <;> rfl
  | _ => rfl

/-- A call can be made when the one before has returned. -/
theorem System.of_call (h : s.step exec (.call c) = some s') :
    Callable s.master.pc = true ∧ s.master.todo = [] ∧ s' = s.begin exec c := by
  rw [step] at h
  split at h
  · rename_i hc
    exact ⟨hc.1, List.isEmpty_iff.mp hc.2, (Option.some.inj h).symm⟩
  · cases h

theorem System.step_call (hcallable : Callable s.master.pc = true) (htodo : s.master.todo = []) :
    s.step exec (.call c) = some (s.begin exec c) := by
  rw [step, htodo]
  exact if_pos ⟨hcallable, rfl⟩

/-- A thread that has panicked does not recover with the next call. -/
theorem System.DispatchPanicked.call (h : s.DispatchPanicked exec)
    (hs : s.step exec (.call c) = some s') : s'.DispatchPanicked exec := by
  obtain ⟨hcallable, -, rfl⟩ := of_call hs
  rcases h with ⟨w, hw, why, hpc⟩ | ⟨-, why, hpc⟩
  · refine .inl ⟨w, hw, why, ?_⟩
    rw [begin_worker]
    exact hpc
  · rw [hpc] at hcallable
    cases hcallable

/-- The executor is ready when a state has been applied. -/
theorem Stage.call (h : Stage exec false current s) (hc : c.Allowed exec s)
    (hs : s.step exec (.call c) = some s') (hsound : ¬ s'.DispatchPanicked exec) :
    Stage exec false c.transactions s' := by
  obtain ⟨hcallable, htodo, rfl⟩ := System.of_call hs
  obtain ⟨hready, horphans⟩ := h.ready hcallable
  cases hc with
  | authorBlock htxPool horphanPool htxs hdist =>
    exact .authoring
      ⟨hready, htxPool, horphanPool, htxs, hdist, System.called_begin .., hsound⟩
  | validateBlock htagged =>
    exact .validating ⟨hready, horphans, System.called_begin ..⟩ htagged hsound
  | clean =>
    have hcleaned := hready.clean (System.called_begin ..)
    exact .resting hcleaned.ready (System.onlyOrphans hcleaned.orphanPool)
  | applyState htaints => exact .resting (hready.begin_applyState htaints) horphans

theorem Stage.terminate (h : Stage exec false current s)
    (hs : s.step exec (.call .runTerminate) = some s') : Stage exec true [] s' := by
  obtain ⟨hcallable, htodo, rfl⟩ := System.of_call hs
  obtain ⟨hready, -⟩ := h.ready hcallable
  refine .leaving ⟨fun w hw => ?_, hready.fromOthers, hready.toMaster, fun effect he => ?_, rfl⟩
  · have hsent : (s.begin exec .runTerminate).master.todo.filterMap (Master.Effect.messageTo w) =
        [.terminate] := by
      simp [System.begin, List.filterMap_append, unparkAll_to, broadcast_to exec.nodup hw]
    rw [hsent]
    exact (hready.workers w hw).leaving
  · rcases List.mem_append.mp he with he | he
    · obtain ⟨u, -, rfl⟩ := List.mem_map.mp he
      trivial
    · obtain ⟨u, -, rfl⟩ := List.mem_map.mp he
      trivial

/-- A worker that is ready has no command in its queue. -/
theorem Worker.Ready.noCommand {workers toOthers : List ThreadId} {pc : Pc}
    {inbox : List MessagePayload} (h : Ready workers pc toOthers inbox) :
    ∀ payload ∈ inbox, payload.isCommand = false := by
  intro payload hp
  cases h with
  | setup | draining =>
    rw [List.mem_singleton.mp hp]
    rfl
  | park => cases hp
  | recvTask => cases hp

/-- A worker that is ready will be woken, and given one command at most, once the master
has lined up a call that wakes it first. -/
theorem Worker.Ready.wakeful {workers : List ThreadId} {w : ThreadId} {wk : Worker}
    {todo : List Master.Effect} (h : Ready workers wk.pc wk.toOthers wk.fromMaster)
    (honce : (todo.filterMap (Master.Effect.messageTo w)).countP MessagePayload.isCommand ≤ 1)
    (hroused : Roused w todo) : Wakeful w wk todo := by
  have hnone : wk.fromMaster.countP MessagePayload.isCommand = 0 := by
    refine List.countP_eq_zero.mpr fun payload hp => ?_
    simp [h.noCommand payload hp]
  refine ⟨?_, .inr (.inr (.inr ⟨h.noCommand, hroused⟩))⟩
  rw [List.countP_append]
  omega

/-- **A call wakes the workers before it gives them a command.** -/
theorem System.Ready.awake_call (h : s.Ready exec) (hc : c.Allowed exec s ∨ c = .runTerminate) :
    (s.begin exec c).Awake exec := by
  intro w hw
  have hunpark : Master.Effect.unpark w ∈ Master.unparkAll exec.workers := List.mem_map_of_mem hw
  rw [begin_worker]
  rcases hc with hc | rfl
  · cases hc with
    | authorBlock htxPool horphanPool htxs hdist =>
      apply (h.workers w hw).wakeful
      · rw [begin_eq htxs htxPool]
        simp [List.filterMap_append, unparkAll_to, broadcast_to exec.nodup hw, MessagePayload.isCommand]
      · rw [begin_eq htxs htxPool, List.append_assoc]
        exact (roused_unparkAll w exec.workers).append_left hunpark
    | @validateBlock block htagged =>
      apply (h.workers w hw).wakeful
      · have hnone : ((Pool.share block w).map MessagePayload.transaction).countP
            MessagePayload.isCommand = 0 := by
          refine List.countP_eq_zero.mpr fun payload hp => ?_
          obtain ⟨tx, -, rfl⟩ := List.mem_map.mp hp
          simp [MessagePayload.isCommand]
        have hsent : (s.begin exec (.validateBlock block)).master.todo.filterMap
            (Master.Effect.messageTo w) = .task .validating ::
              ((Pool.share block w).map .transaction ++ [.transactionDistributionDone]) := by
          simp [begin, List.filterMap_append, unparkAll_to, broadcast_to exec.nodup hw,
            validateEffects_to htagged]
        rw [hsent, List.countP_cons_of_pos rfl, List.countP_append, hnone]
        exact Nat.le_refl 1
      · show Roused w (Master.unparkAll exec.workers ++ _ ++ _ ++ _)
        rw [List.append_assoc, List.append_assoc]
        exact (roused_unparkAll w exec.workers).append_left hunpark
    | clean | applyState =>
      have htodo : s.master.todo = [] := h.todo
      apply (h.workers w hw).wakeful
      · show (s.master.todo.filterMap _).countP _ ≤ 1
        rw [htodo]
        exact Nat.zero_le _
      · show Roused w s.master.todo
        rw [htodo]
        trivial
  · apply (h.workers w hw).wakeful
    · simp [begin, List.filterMap_append, unparkAll_to, broadcast_to exec.nodup hw,
        MessagePayload.isCommand]
    · exact (roused_unparkAll w exec.workers).append_left hunpark

/-- **A node goes through the stages of its life awake**, as long as no body of a call
panics.  By induction on the life: threads keep the stage and keep the workers awake, and a
call finds the executor ready. -/
theorem Life.stage (h : Life exec s₀ terminates current s) (hready : s₀.Ready exec)
    (horphans : ∀ tx ∈ s₀.master.orphanPool, tx.tag = .orphan) (hsound : ¬ s.DispatchPanicked exec) :
    Stage exec terminates current s ∧ s.Awake exec := by
  induction h with
  | spawned =>
    refine ⟨.resting hready horphans, fun w hw => ?_⟩
    apply (hready.workers w hw).wakeful
    · rw [hready.todo]
      exact Nat.zero_le _
    · rw [hready.todo]
      trivial
  | thread h ha hs ih =>
    have hthreads := System.threads_of_step ha hs
    obtain ⟨hstage, hawake⟩ := ih fun hpanic => hsound (hpanic.step hthreads)
    exact ⟨hstage.thread ha hs hsound, hawake.step hthreads⟩
  | call h hc hs ih =>
    obtain ⟨hstage, -⟩ := ih fun hpanic => hsound (hpanic.call hs)
    obtain ⟨hcallable, -, heq⟩ := System.of_call hs
    refine ⟨hstage.call hc hs hsound, ?_⟩
    rw [heq]
    exact (hstage.ready hcallable).1.awake_call (.inl hc)
  | terminate h hs ih =>
    obtain ⟨hstage, -⟩ := ih fun hpanic => hsound (hpanic.call hs)
    obtain ⟨hcallable, -, heq⟩ := System.of_call hs
    refine ⟨hstage.terminate hs, ?_⟩
    rw [heq]
    exact (hstage.ready hcallable).1.awake_call (.inr rfl)

end

/-! ## Discipline -/

/-- The worker has neither panicked over a message nor terminated. -/
def Worker.Pc.Present : Pc → Prop
  | .panicked _ => False
  | .terminated => False
  | _ => True

/-- What a thread can rely on, with the transactions that the current call is about.  All
of it is about one state: it holds of every state in the life of a node. -/
structure System.Disciplined (exec : Executor) (terminates : Bool) (current : List Transaction)
    (s : System) : Prop where
  orderly : s.Orderly exec
  /-- What a worker finds in the master's queue is what it expects there. -/
  accepts : ∀ w ∈ exec.workers, (s.worker w).pc.Receives → ∀ payload rest,
    (s.worker w).fromMaster = payload :: rest → (s.worker w).pc.Accepts payload
  /-- A worker does not park while a command is in its queue. -/
  awake : ∀ w ∈ exec.workers, (s.worker w).pc = .park → (s.worker w).token = false →
    ∀ payload ∈ (s.worker w).fromMaster, payload.isCommand = false
  /-- Nothing is left in the queues of an earlier call. -/
  fromMaster : ∀ w ∈ exec.workers, ∀ tx, .transaction tx ∈ (s.worker w).fromMaster →
    ∃ t ∈ current, tx.content = t.content
  fromOthers : ∀ w ∈ exec.workers, ∀ v, ∀ payload ∈ (s.worker w).fromOthers v,
    ∃ tx, payload = .transaction tx ∧ ∃ t ∈ current, tx.content = t.content
  /-- No worker leaves before it is told to. -/
  present : terminates = false → ∀ w ∈ exec.workers, (s.worker w).pc.Present
  ready : terminates = false → System.Callable s.master.pc = true → s.Ready exec

theorem Worker.Pc.Present.not_panicked {pc : Pc} (h : pc.Present) (why : Panic) :
    pc ≠ .panicked why := by
  rintro rfl
  exact h

theorem Worker.Pc.Executes.present {pc : Pc} {job : Job} (h : pc.Executes job) : pc.Present := by
  have hjob := h.job_eq
  cases pc with
  | panicked | terminated => cases hjob
  | _ => trivial

theorem Stand.present {workers : List ThreadId} {pool : Pool} {w : ThreadId} {fresh : Prop}
    {pc : Pc} {toOthers : List ThreadId} {inbox : List MessagePayload} {ran : List Transaction}
    {reports : List (Nat × Nat)} (h : Stand workers pool w fresh pc toOthers inbox ran reports) :
    pc.Present := by
  cases h with
  | draining hpc | polling hpc => rcases hpc with rfl | rfl <;> trivial
  | zeroth hpc | first hpc | second hpc => exact hpc.present
  | _ => trivial

theorem transaction_mem_orders {txs : List Transaction} {tx : Transaction} :
    .transaction tx ∈ orders txs ↔ tx ∈ txs := by
  simp [orders]

/-- The transactions that the master hands to a worker are the worker's. -/
theorem Stand.mem_share {workers : List ThreadId} {pool : Pool} {w : ThreadId} {fresh : Prop}
    {pc : Pc} {toOthers : List ThreadId} {inbox : List MessagePayload} {ran : List Transaction}
    {reports : List (Nat × Nat)} {tx : Transaction}
    (h : Stand workers pool w fresh pc toOthers inbox ran reports) (htx : .transaction tx ∈ inbox) :
    tx ∈ pool.share w := by
  cases h with
  | setup | draining | zeroth | park | recvTask =>
    simpa [transaction_mem_orders] using htx
  | depleting hearly hshare | first hpc hcaller hearly hshare =>
    rw [transaction_mem_orders] at htx
    rw [hshare]
    simp [htx]
  | reporting | polling | second => cases htx

theorem Validator.mem_share {workers toOthers : List ThreadId} {share executed : List Transaction}
    {pc : Pc} {inbox reports : List MessagePayload} {tx : Transaction}
    (h : Validator workers share pc toOthers inbox executed reports) (htx : .transaction tx ∈ inbox) :
    tx ∈ share ∨ ∃ why, pc = .dispatchPanicked why := by
  cases h with
  | ready hready =>
    left
    rcases List.mem_append.mp htx with htx | htx
    · cases hready with
      | setup | draining => cases List.mem_singleton.mp htx
      | park => cases htx
      | recvTask => cases htx
    · simpa [transaction_mem_orders] using htx
  | depleting hshare | executing hshare =>
    rw [transaction_mem_orders] at htx
    rw [hshare]
    simp [htx]
  | reporting | reported => cases htx
  | panicked => exact .inr ⟨_, rfl⟩

section
variable {exec : Executor} {s₀ s s₁ : System} {current : List Transaction} {terminates : Bool}
  {return_to : Master.Return}

theorem Worker.Ready.accepts {workers toOthers : List ThreadId} {pc : Pc}
    {inbox rest : List MessagePayload} {payload : MessagePayload} (h : Ready workers pc toOthers inbox)
    (hpc : pc.Receives) (hinbox : inbox = payload :: rest) : pc.Accepts payload := by
  cases h with
  | setup => cases hinbox; trivial
  | draining hpc' =>
    rcases hpc' with rfl | rfl
    · cases hinbox; trivial
    · exact hpc.elim
  | park => cases hinbox
  | recvTask => cases hinbox

theorem Worker.Ready.not_transaction {workers toOthers : List ThreadId} {pc : Pc}
    {inbox : List MessagePayload} {tx : Transaction} (h : Ready workers pc toOthers inbox) :
    .transaction tx ∉ inbox := by
  intro htx
  cases h with
  | setup | draining => cases List.mem_singleton.mp htx
  | park => cases htx
  | recvTask => cases htx

theorem Worker.Ready.present {workers toOthers : List ThreadId} {pc : Pc}
    {inbox : List MessagePayload} (h : Ready workers pc toOthers inbox) : pc.Present := by
  cases h with
  | draining hpc => rcases hpc with rfl | rfl <;> trivial
  | _ => trivial

theorem Validator.present {workers toOthers : List ThreadId} {share executed : List Transaction}
    {pc : Pc} {inbox reports : List MessagePayload}
    (h : Validator workers share pc toOthers inbox executed reports) : pc.Present := by
  cases h with
  | ready h => exact h.present
  | reported hpc => rcases hpc with rfl | rfl <;> trivial
  | _ => trivial

/-- Where the workers have nothing to do, messages come as expected. -/
theorem disciplined_of_ready {pending : ThreadId → List MessagePayload}
    (hmaster : ∀ why, s.master.pc ≠ .panicked why)
    (hworkers : ∀ w ∈ exec.workers, Worker.Ready exec.workers (s.worker w).pc (s.worker w).toOthers
      ((s.worker w).fromMaster ++ pending w))
    (hothers : ∀ w ∈ exec.workers, ∀ v, (s.worker w).fromOthers v = []) (hawake : s.Awake exec)
    (hready : terminates = false → System.Callable s.master.pc = true → s.Ready exec) :
    s.Disciplined exec terminates current := by
  have hpresent : ∀ w ∈ exec.workers, (s.worker w).pc.Present := fun w hw => (hworkers w hw).present
  refine ⟨⟨fun w hw => (hpresent w hw).not_panicked, hmaster⟩, fun w hw hpc payload rest hq => ?_,
    hawake.sleep, fun w hw tx htx => ?_, fun w hw v payload hp => ?_, fun _ => hpresent, hready⟩
  · have hworker := hworkers w hw
    rw [hq] at hworker
    exact hworker.accepts hpc rfl
  · exact absurd (List.mem_append_left _ htx) (hworkers w hw).not_transaction
  · rw [hothers w hw v] at hp
    cases hp

theorem Closing.disciplined (h : Closing exec return_to s₁ s) (hawake : s.Awake exec)
    (hready : terminates = false → System.Callable s.master.pc = true → s.Ready exec) :
    s.Disciplined exec terminates current :=
  disciplined_of_ready h.orderly.master (fun w hw => (h.workers w hw).retired.ready)
    (fun w hw => (h.workers w hw).fromOthers) hawake hready

/-- **At every stage messages come as expected.**  By cases on the stage: where the
workers have nothing to do, by `Ready` or `Leaving`; in a call, by the invariant of its
protocol. -/
theorem Stage.disciplined (h : Stage exec terminates current s) (hawake : s.Awake exec) :
    s.Disciplined exec terminates current := by
  have hready : terminates = false → System.Callable s.master.pc = true → s.Ready exec := by
    rintro rfl hcallable
    exact (h.ready hcallable).1
  cases h with
  | resting h =>
    have hmaster : ∀ why, s.master.pc ≠ .panicked why := by
      intro why hpc
      have hcallable := h.callable
      rw [hpc] at hcallable
      cases hcallable
    have hworkers : ∀ w ∈ exec.workers, Worker.Ready exec.workers (s.worker w).pc
        (s.worker w).toOthers ((s.worker w).fromMaster ++ []) := by
      intro w hw
      rw [List.append_nil]
      exact h.workers w hw
    exact disciplined_of_ready hmaster hworkers h.fromOthers hawake hready
  | @authoring s₀ _ _ pool h =>
    rcases h.phase with hauthoring | ⟨s₁, -, hclosing⟩
    · have hcontent : ∀ tx ∈ pool, ∃ t ∈ current, tx.content = t.content := by
        intro tx htx
        obtain ⟨t, ht, w, -, rfl⟩ := h.distributes.of_mem htx
        exact ⟨t, ht, rfl⟩
      have hpresent : ∀ w ∈ exec.workers, (s.worker w).pc.Present :=
        fun w hw => (hauthoring.workers w hw).stand.present
      refine ⟨⟨fun w hw => (hpresent w hw).not_panicked, h.not_panicked⟩,
        fun w hw hpc payload rest hq => ?_, hawake.sleep, fun w hw tx htx => ?_,
        fun w hw v payload hp => ?_, fun _ => hpresent, hready⟩
      · have hstand := (hauthoring.workers w hw).stand
        rw [hq] at hstand
        exact hstand.accepts hpc rfl
      · have hshare := (hauthoring.workers w hw).stand.mem_share (List.mem_append_left _ htx)
        exact hcontent tx (List.mem_filter.mp hshare).1
      · obtain ⟨tx, htx, -, rfl⟩ := (hauthoring.workers w hw).queues v payload hp
        exact ⟨tx, rfl, hcontent tx htx⟩
    · exact hclosing.disciplined hawake hready
  | validating h htagged hsound =>
    have hphase := h.phase_of htagged (K := fun _ => True) trivial fun _ _ _ _ _ => trivial
    have hphase' := hphase.resolve_right fun hpanic => hsound (.inr hpanic)
    have horderly := hphase'.orderly
    rcases hphase' with ⟨hvalidation, -⟩ | ⟨s₁, -, hclosing⟩
    · refine ⟨horderly, fun w hw hpc payload rest hq => ?_,
        hawake.sleep, fun w hw tx htx => ?_, fun w hw v payload hp => ?_,
        fun _ w hw => (hvalidation.workers w hw).present, hready⟩
      · have hvalidator := hvalidation.workers w hw
        rw [hq] at hvalidator
        exact hvalidator.accepts hpc rfl
      · rcases (hvalidation.workers w hw).mem_share (List.mem_append_left _ htx) with
          hshare | ⟨why, hpc⟩
        · exact ⟨tx, (List.mem_filter.mp hshare).1, rfl⟩
        · exact absurd (.inl ⟨w, hw, why, hpc⟩) hsound
      · rw [hvalidation.fromOthers w hw v] at hp
        cases hp
    · exact hclosing.disciplined hawake hready
  | leaving h =>
    refine ⟨⟨fun w hw why hpc => ?_, fun why hpc => ?_⟩, fun w hw hpc payload rest hq => ?_,
      hawake.sleep, fun w hw tx htx => ?_, fun w hw v payload hp => ?_, fun hstays => ?_, hready⟩
    · have hmem := (h.workers w hw).mem
      rw [hpc] at hmem
      simp at hmem
    · cases h.pc.symm.trans hpc
    · have hleaving := h.workers w hw
      rw [hq] at hleaving
      exact hleaving.accepts hpc rfl
    · exact absurd (List.mem_append_left _ htx) (h.workers w hw).not_transaction
    · rw [h.fromOthers w hw v] at hp
      cases hp
    · cases hstays

/-- **The discipline of messages holds over the whole life of a node.**  In any schedule of
calls and threads in which no body of a call panics, no message comes unexpected and no
worker is handed a transaction of an earlier call; a worker that has been given a task, or
told to terminate, does not sleep, and none terminates before it is told; and between calls
the executor is ready for the next one. -/
theorem node_life_disciplined (h : Life exec s₀ terminates current s) (hready : s₀.Ready exec)
    (horphans : ∀ tx ∈ s₀.master.orphanPool, tx.tag = .orphan) (hsound : ¬ s.DispatchPanicked exec) :
    s.Disciplined exec terminates current := by
  obtain ⟨hstage, hawake⟩ := h.stage hready horphans hsound
  exact hstage.disciplined hawake

/-- The threads go on. -/
theorem Life.threads {as : List Action} (h : Life exec s₀ terminates current s)
    (has : ∀ a ∈ as, a.OfThread) (hexec : Transition.exec (System.step exec) as s = some s₁) :
    Life exec s₀ terminates current s₁ :=
  Transition.exec_invariant_of (I := Life exec s₀ terminates current)
    (fun _ _ _ ha hlife hs => hlife.thread ha hs) has hexec h

theorem AuthorRun.life {txs : List Transaction} {pool : Pool} (h : AuthorRun exec s₀ txs pool s) :
    Life exec s₀ false txs s := by
  obtain ⟨as, has, hexec⟩ := h.run
  have hc : (Call.authorBlock txs).Allowed exec s₀ :=
    .authorBlock h.txPool h.orphanPool h.submitted h.distributes
  exact (Life.spawned.call hc (System.step_call h.ready.callable h.ready.todo)).threads has hexec

theorem ValidateCall.life {block : List Transaction} (h : ValidateCall exec s₀ block s)
    (htagged : Tagged exec block) : Life exec s₀ false block s := by
  obtain ⟨as, has, hexec⟩ := h.run
  have hc : (Call.validateBlock block).Allowed exec s₀ := .validateBlock htagged
  exact (Life.spawned.call hc (System.step_call h.ready.callable h.ready.todo)).threads has hexec

end
end

section
open Testing

namespace Testing

/-- The node is told to terminate once it has authored. -/
def dismissed : System :=
  (settled.begin twoWorkers .clean).begin twoWorkers .runTerminate

def departed : System :=
  (Transition.exec (System.step twoWorkers)
    (List.replicate 4 Action.master ++ List.replicate 3 (Action.worker 1) ++
      List.replicate 3 (Action.worker 2))
    dismissed).get (by decide +kernel)

theorem departed_life : Life twoWorkers spawned true [] departed := by
  obtain ⟨state, block, hpc⟩ := settled_returned
  have htodo : settled.master.todo = [] := by decide +kernel
  have hcleans : Life twoWorkers spawned false [] (settled.begin twoWorkers .clean) :=
    settled_run.life.call .clean (System.step_call (by rw [hpc]; rfl) htodo)
  exact (hcleans.terminate (System.step_call rfl htodo)).threads (by decide) (Option.some_get _).symm

/-- All workers have left the loop of `run`. -/
def left (exec : Executor) (s : System) : Bool :=
  exec.workers.all fun w =>
    match (s.worker w).pc with
    | .terminated => true
    | _ => false

end Testing

theorem node_life_disciplined_departed : left twoWorkers departed = true ∧
    departed.Disciplined twoWorkers true [] :=
  ⟨by decide +kernel, node_life_disciplined departed_life spawned_ready
    (System.onlyOrphans rfl) (not_panicked_of_sound (by decide +kernel))⟩

end
end SonicChain
