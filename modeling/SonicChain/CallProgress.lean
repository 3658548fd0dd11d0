import SonicChain.WorkerProgress

/-! # The threads in turn

The master performs what is to be done (`performs`), each worker comes to wait
(`workers_wait`), and the master receives what they have sent (`receives_all`).  In this way
a node that is told to terminate can do so (`System.Leaving.leads`), and so can the orphan
phase (`Closing.leads`) and a validation (`Validation.leads`).
-/

namespace SonicChain
open Worker Transition

section
variable [Ed25519]

/-! ## What every thread keeps -/

/-- No command is slept through, entries are looked at again for an access, and messages
come from workers. -/
structure System.Attentive (exec : Executor) (s : System) : Prop where
  awake : s.Awake exec
  keyed : ∀ w ∈ exec.workers, (s.worker w).pc.Keyed
  senders : ∀ w ∈ exec.workers, ∀ v ∉ exec.workers, (s.worker w).fromOthers v = []

section
variable {id w : ThreadId} {wk : Worker} {state : StateMap} {m : Move} {exec : Executor}
  {s s' : System} {a : Action} {P : System → Prop}

/-- An empty queue stays empty. -/
theorem Worker.Step.fromOthers_nil (h : Step id wk state m) {v : ThreadId}
    (hv : wk.fromOthers v = []) : m.worker.fromOthers v = [] := by
  cases h with
  | access hpc hkey =>
    unfold Worker.access
    split
    · exact hv
    · split
      · exact hv
      · exact hv
  | accessRecheck hpc hkey =>
    unfold Worker.accessRecheck
    split
    · exact hv
    · exact hv
  | settle hres =>
    unfold executeOrForward
    dsimp only
    repeat' split
    all_goals exact hv
  | @takeForwarded sender tx rest hpc hq =>
    show Function.update wk.fromOthers sender rest v = []
    have hne : v ≠ sender := by
      rintro rfl
      rw [hv] at hq
      cases hq
    rw [Function.update_of_ne hne]
    exact hv
  | _ => exact hv

/-- What is in a worker's queues comes from workers. -/
theorem System.applyMove_fromOthers (s : System) (w : ThreadId) (m : Move) {u v : ThreadId}
    (hv : v ≠ w) : ((s.applyMove w m).worker u).fromOthers v =
      (Function.update s.worker w m.worker u).fromOthers v := by
  show (deliver w m.forward (Function.update s.worker w m.worker) u).fromOthers v = _
  cases m.forward with
  | none => rfl
  | some message =>
    obtain ⟨target, payload⟩ := message
    dsimp only [deliver]
    by_cases hu : u = target
    · subst hu
      rw [Function.update_self]
      exact Function.update_of_ne hv ..
    · rw [Function.update_of_ne hu]

/-- The master receives the first message of a worker. -/
theorem System.collect_worker {v : ThreadId} (h : s.collect v = some s') :
    ∃ payload rest, (s.worker v).toMaster = payload :: rest ∧
      s'.worker = Function.update s.worker v { s.worker v with toMaster := rest } ∧
      s'.master.todo = [] := by
  unfold collect at h
  split at h
  · rename_i htodo _ hq
    refine ⟨_, _, hq, ?_⟩
    dsimp only at h
    split at h <;> obtain rfl := Option.some.inj h <;> exact ⟨rfl, htodo⟩
  · rename_i htodo _ hq
    refine ⟨_, _, hq, ?_⟩
    dsimp only at h
    split at h <;> obtain rfl := Option.some.inj h <;> exact ⟨rfl, htodo⟩
  · cases h

/-- The master's own program leaves the workers alone. -/
theorem System.masterStep_worker (hs : s.masterStep exec = some s') (w : ThreadId) :
    (s'.worker w).pc = (s.worker w).pc ∧ (s'.worker w).fromOthers = (s.worker w).fromOthers := by
  refine ⟨masterStep_pc hs w, ?_⟩
  cases htodo : s.master.todo with
  | nil => rw [(masterStep_noCommand htodo hs w).1]
  | cons effect todo =>
    rw [masterStep, htodo] at hs
    obtain rfl := Option.some.inj hs
    exact (perform_worker s effect todo w).2.2.1

/-- **Every thread stays attentive.** -/
theorem System.Attentive.step (h : s.Attentive exec) (hs : s.Threads exec s') : s'.Attentive exec := by
  refine ⟨h.awake.step hs, fun u hu => ?_, fun u hu v hv => ?_⟩
  · cases hs with
    | @worker w m hw hstep =>
      obtain ⟨queues, hworker⟩ := s.applyMove_worker w m u
      rw [hworker]
      by_cases huw : u = w
      · subst huw
        rw [Function.update_self]
        exact hstep.keyed
      · rw [Function.update_of_ne huw]
        exact h.keyed u hu
    | master hstep =>
      rw [(masterStep_worker hstep u).1]
      exact h.keyed u hu
    | collect hw hstep =>
      rw [(collect_rests hstep u).1]
      exact h.keyed u hu
  · cases hs with
    | @worker w m hw hstep =>
      have hne : v ≠ w := fun heq => hv (heq ▸ hw)
      rw [s.applyMove_fromOthers w m hne]
      by_cases huw : u = w
      · subst huw
        rw [Function.update_self]
        exact hstep.fromOthers_nil (h.senders u hu v hv)
      · rw [Function.update_of_ne huw]
        exact h.senders u hu v hv
    | master hstep =>
      rw [(masterStep_worker hstep u).2]
      exact h.senders u hu v hv
    | @collect w _ hw hstep =>
      obtain ⟨payload, rest, -, hworker, -⟩ := collect_worker hstep
      rw [hworker]
      by_cases huw : u = w
      · subst huw
        rw [Function.update_self]
        exact h.senders u hu v hv
      · rw [Function.update_of_ne huw]
        exact h.senders u hu v hv

/-! ## The threads in turn -/

/-- The master performs what is to be done. -/
theorem performs {I : System → Prop}
    (hperform : ∀ s effect todo, I s → s.master.todo = effect :: todo →
      I (s.perform effect todo) ∧ (s.perform effect todo).master.todo = todo) (hi : I s) :
    Leads (System.step exec) System.Acts (fun s' => I s' ∧ s'.master.todo = []) s := by
  refine Leads.of_measure (I := I) (fun s => s.master.todo.length) (fun s hi => ?_) hi
  cases htodo : s.master.todo with
  | nil => exact .now (.inl ⟨hi, htodo⟩)
  | cons effect todo =>
    obtain ⟨hi', htodo'⟩ := hperform s effect todo hi htodo
    have hs : s.step exec .master = some (s.perform effect todo) := by
      rw [System.step, System.masterStep, htodo]
    refine .next (a := .master) trivial hs (.now (.inr ⟨hi', ?_⟩))
    rw [htodo']
    exact Nat.lt_succ_self _

/-- A worker alone leaves the master and what the others do alone. -/
theorem System.Alone.beside (ha : s.Alone w a) (hs : s.step exec a = some s') :
    s'.master = s.master ∧ ∀ v, v ≠ w →
      ∃ queues, s'.worker v = { s.worker v with fromOthers := queues } := by
  obtain ⟨m, -, -, rfl⟩ := ha.move hs
  exact ⟨rfl, fun v hv => s.applyMove_other m hv⟩

/-- **Each worker in turn comes to wait.** -/
theorem workers_wait {I : System → Prop} {D : Worker → Prop}
    (hmove : ∀ w ∈ exec.workers, ∀ s m, I s → Step w (s.worker w) s.state m →
      I (s.applyMove w m) ∨ (s.applyMove w m).DispatchPanicked exec)
    (hattentive : ∀ s, I s → s.Attentive exec)
    (hwaits : ∀ w ∈ exec.workers, ∀ s, I s → (s.worker w).Waits →
      D (s.worker w) ∨ s.DispatchPanicked exec)
    (hqueues : ∀ wk queues, D wk → D { wk with fromOthers := queues }) (hi : I s) :
    Leads (System.step exec) System.Acts
      (fun s' => s'.DispatchPanicked exec ∨ I s' ∧ ∀ w ∈ exec.workers, D (s'.worker w)) s := by
  refine Leads.each (D := fun w s => D (s.worker w)) (fun w hw s hi => ?_) hi
  have hkept : ∀ s₁ a s₂, s₁.Alone w a →
      (I s₁ ∨ s₁.DispatchPanicked exec) ∧ (∀ v, v ≠ w → D (s.worker v) → D (s₁.worker v)) →
      s₁.step exec a = some s₂ →
      (I s₂ ∨ s₂.DispatchPanicked exec) ∧ (∀ v, v ≠ w → D (s.worker v) → D (s₂.worker v)) := by
    rintro s₁ a s₂ ha ⟨hi, hother⟩ hs
    refine ⟨?_, fun v hv hd => ?_⟩
    · rcases hi with hi | hpanic
      · obtain ⟨m, hm, -, rfl⟩ := ha.move hs
        exact hmove w hw s₁ m hi hm
      · exact .inr (hpanic.step (System.threads_of_step ha.acts.ofThread hs))
    · obtain ⟨queues, hworker⟩ := (ha.beside hs).2 v hv
      rw [hworker]
      exact hqueues _ _ (hother v hv hd)
  refine (((worker_waits hw ((hattentive s hi).keyed w hw)).along hkept
    ⟨.inl hi, fun _ _ hd => hd⟩).weaken fun _ _ ha => ha.acts).mono ?_
  rintro s' ⟨⟨hi' | hpanic, hother⟩, hwait⟩
  · rcases hwaits w hw s' hi' hwait with hd | hpanic
    · refine .inr ⟨hi', hd, fun v hv hdv => ?_⟩
      by_cases hvw : v = w
      · exact hvw ▸ hd
      · exact hother v hvw hdv
    · exact .inl hpanic
  · exact .inl hpanic

/-- What the workers have sent to the master and it has not received. -/
def System.undelivered (exec : Executor) (s : System) : Nat :=
  (exec.workers.map fun w => (s.worker w).toMaster.length).sum

theorem System.undelivered_collect (hw : w ∈ exec.workers) (hs : s.collect w = some s') :
    s'.undelivered exec < s.undelivered exec := by
  obtain ⟨payload, rest, hq, hworker, -⟩ := collect_worker hs
  refine List.sum_lt_sum _ _ (fun v hv => ?_) ⟨w, hw, ?_⟩
  · rw [hworker]
    by_cases hvw : v = w
    · subst hvw
      rw [Function.update_self, hq]
      exact Nat.le_succ _
    · rw [Function.update_of_ne hvw]
  · rw [hworker, Function.update_self, hq]
    exact Nat.lt_succ_self _

/-- **The master receives everything that has been sent**, `J` at its `try_recv` and `K` at
its exit condition. -/
theorem receives_all {J K Q : System → Prop}
    (hcheck : ∀ s, K s → Leads (System.step exec) System.Acts
      (fun s' => Q s' ∨ J s' ∧ s'.undelivered exec ≤ s.undelivered exec) s)
    (hcollect : ∀ s, J s → ∀ w ∈ exec.workers, (s.worker w).toMaster ≠ [] →
      ∃ s', s.collect w = some s' ∧ K s')
    (hend : ∀ s, J s → (∀ w ∈ exec.workers, (s.worker w).toMaster = []) →
      Leads (System.step exec) System.Acts Q s) (hj : J s) :
    Leads (System.step exec) System.Acts Q s := by
  refine Leads.of_measure (I := J) (System.undelivered exec) (fun s hj => ?_) hj
  by_cases hall : ∀ w ∈ exec.workers, (s.worker w).toMaster = []
  · exact (hend s hj hall).mono fun s' hq => .inl hq
  · obtain ⟨w, hw, hne⟩ : ∃ w, w ∈ exec.workers ∧ (s.worker w).toMaster ≠ [] := by
      by_contra hnone
      exact hall fun w hw => by_contra fun hne => hnone ⟨w, hw, hne⟩
    obtain ⟨s', hs, hk⟩ := hcollect s hj w hw hne
    have hlt := System.undelivered_collect hw hs
    have hstep : s.step exec (.collect w) = some s' := by
      rw [System.step, if_pos hw]
      exact hs
    refine .next (a := .collect w) trivial hstep ((hcheck s' hk).mono fun s'' h'' => h''.imp_right ?_)
    rintro ⟨hj', hle⟩
    exact ⟨hj', by omega⟩

/-- The master performs an effect: the threads stay attentive. -/
theorem System.Attentive.perform (h : s.Attentive exec) {effect : Master.Effect}
    {todo : List Master.Effect} (htodo : s.master.todo = effect :: todo) :
    (s.perform effect todo).Attentive exec := by
  refine h.step (.master ?_)
  rw [masterStep, htodo]

/-! ## Termination -/

/-- A worker that waits on its way out has terminated. -/
theorem Worker.Leaving.terminated_of_waits {workers toOthers : List ThreadId} {pc : Pc} {token : Bool}
    {inbox : List MessagePayload} (h : Worker.Leaving workers pc toOthers inbox)
    (hwaits : pc.Waits token inbox)
    (hsleep : pc = .park → token = false → ∀ payload ∈ inbox, payload.isCommand = false) :
    pc = .terminated := by
  cases h with
  | setup => cases hwaits.2
  | draining hpc =>
    rcases hpc with rfl | rfl
    · cases hwaits.2
    · exact hwaits.1.elim
  | waiting hpc =>
    rcases hpc with rfl | rfl
    · cases hsleep rfl hwaits _ (List.mem_cons_self ..)
    · cases hwaits.2
  | terminated => rfl

/-- **A node that has been told to terminate can do so.** -/
theorem System.Leaving.leads (h : s.Leaving exec) (hattentive : s.Attentive exec) :
    Leads (System.step exec) System.Acts (fun s' => s'.DispatchPanicked exec ∨
      ∀ w ∈ exec.workers, (s'.worker w).pc = .terminated) s := by
  refine (performs (I := fun s => s.Leaving exec ∧ s.Attentive exec) ?_ ⟨h, hattentive⟩).bind
    fun s₁ ⟨⟨h₁, hattentive₁⟩, htodo₁⟩ => ?_
  · rintro s effect todo ⟨h, hattentive⟩ htodo
    have heffect : effect.OfValidation := h.todo effect (by rw [htodo]; exact List.mem_cons_self ..)
    have hs : s.Threads exec (s.perform effect todo) := by
      refine .master ?_
      rw [masterStep, htodo]
    refine ⟨⟨h.step hs, hattentive.step hs⟩, ?_⟩
    cases effect <;> first | rfl | exact heffect.elim
  · refine (workers_wait (I := fun s => (s.Leaving exec ∧ s.Attentive exec) ∧ s.master.todo = [])
      (D := fun wk => wk.pc = .terminated) ?_ (fun s hi => hi.1.2) ?_ (fun _ _ hd => hd)
      ⟨⟨h₁, hattentive₁⟩, htodo₁⟩).mono fun s' h' => h'.imp_right And.right
    · rintro w hw s m ⟨⟨h, hattentive⟩, htodo⟩ hm
      exact .inl ⟨⟨h.step (.worker hw hm), hattentive.step (.worker hw hm)⟩, htodo⟩
    · rintro w hw s ⟨⟨h, hattentive⟩, htodo⟩ hwaits
      have hleaving := h.workers w hw
      rw [htodo, List.filterMap_nil, List.append_nil] at hleaving
      exact .inl (hleaving.terminated_of_waits hwaits (hattentive.awake.sleep w hw))

/-! ## The orphan phase -/

end

section
variable {exec : Executor} {return_to : Master.Return} {s₁ s : System} {tx : Transaction}
  {code : Storage (Except DispatchError Unit)} {rest : List Transaction}

/-- The call that has executed the orphans has returned. -/
def Master.Pc.Returned : Master.Return → Master.Pc → Prop
  | .author, .authored _ _ => True
  | .validate, .validated _ => True
  | _, _ => False

theorem System.finish_returned (s : System) (return_to : Master.Return) :
    (s.finish return_to).master.pc.Returned return_to := by
  cases return_to <;> trivial

/-- The master goes on in the orphan phase. -/
theorem Closing.leads_of_step {s' : System} {P : System → Prop} (h : Closing exec return_to s₁ s)
    (htags : ∀ tx ∈ s₁.master.orphanPool, tx.tag = .orphan) (hs : s.masterStep exec = some s')
    (hp : Closing exec return_to s₁ s' → Leads (System.step exec) System.Acts
      (fun s'' => s''.MasterPanicked ∨ P s'') s') :
    Leads (System.step exec) System.Acts (fun s'' => s''.MasterPanicked ∨ P s'') s := by
  refine .next (a := .master) trivial hs ?_
  rcases h.step htags (.master hs) with h' | hpanic
  · exact hp h'
  · exact .now (.inl hpanic)

/-- The dispatch of an orphan ends. -/
theorem Closing.executing_leads (h : Closing exec return_to s₁ s)
    (htags : ∀ tx ∈ s₁.master.orphanPool, tx.tag = .orphan) (htodo : s.master.todo = [])
    {r : Master.Return} (hpc : s.master.pc = .executingOrphan r tx code rest) :
    Leads (System.step exec) System.Acts (fun s' => s'.MasterPanicked ∨
      Closing exec return_to s₁ s' ∧ s'.master.todo = [] ∧
        s'.master.pc = .executeOrphanPool r rest) s := by
  induction code generalizing s with
  | done result =>
    cases hresult : toRuntimeDispatchResult result with
    | ok success =>
      have hs : s.masterStep exec = some { s.setMaster (.executeOrphanPool r rest) with
          log := s.log ++ [.orphanExecuted tx] } := by
        rw [System.masterStep, htodo, hpc]
        simp only [hresult]
      exact h.leads_of_step htags hs fun h' => .now (.inr ⟨h', htodo, rfl⟩)
    | error e =>
      have hs : ∃ why, s.masterStep exec = some (s.setMaster (.panicked why)) := by
        rw [System.masterStep, htodo, hpc]
        simp only [hresult]
        exact ⟨_, rfl⟩
      obtain ⟨why, hs⟩ := hs
      exact h.leads_of_step htags hs fun h' => absurd rfl (h'.orderly.master why)
  | fault why =>
    have hs : s.masterStep exec = some (s.setMaster (.dispatchPanicked why)) := by
      rw [System.masterStep, htodo, hpc]
    exact .next (a := .master) trivial hs (.now (.inl ⟨htodo, why, rfl⟩))
  | read key next ih =>
    have hs : s.masterStep exec = some (s.setMaster
        (.executingOrphan r tx (next (.ok (SequentialRuntime.read s.state key))) rest)) := by
      rw [System.masterStep, htodo, hpc]
    exact h.leads_of_step htags hs fun h' => ih _ h' htodo rfl
  | write key value next ih =>
    have hs : s.masterStep exec = some { s.setMaster (.executingOrphan r tx (next (.ok ())) rest) with
        state := SequentialRuntime.write s.state key value
        log := s.log ++ [.stored none key] } := by
      rw [System.masterStep, htodo, hpc]
    exact h.leads_of_step htags hs fun h' => ih _ h' htodo rfl

/-- The loop of `execute_orphan_pool` ends. -/
theorem Closing.looping_leads (h : Closing exec return_to s₁ s)
    (htags : ∀ tx ∈ s₁.master.orphanPool, tx.tag = .orphan) (htodo : s.master.todo = [])
    {r : Master.Return} (hpc : s.master.pc = .executeOrphanPool r rest) :
    Leads (System.step exec) System.Acts (fun s' => s'.MasterPanicked ∨
      s'.master.todo = [] ∧ s'.master.pc.Returned r) s := by
  induction rest generalizing s with
  | nil =>
    have hs : s.masterStep exec = some (s.finish r) := by
      rw [System.masterStep, htodo, hpc]
    refine .next (a := .master) trivial hs (.now (.inr ⟨?_, s.finish_returned r⟩))
    cases r <;> exact htodo
  | cons tx rest ih =>
    by_cases htag : tx.tag = .orphan
    · have hs : s.masterStep exec = some (s.setMaster (.executingOrphan r tx tx.code rest)) := by
        rw [System.masterStep, htodo, hpc]
        exact if_pos htag
      refine h.leads_of_step htags hs fun h' => ?_
      refine (h'.executing_leads htags htodo rfl).bind fun s₂ h₂ => ?_
      rcases h₂ with hpanic | ⟨h₂, htodo₂, hpc₂⟩
      · exact .now (.inl hpanic)
      · exact ih h₂ htodo₂ hpc₂
    · have hs : ∃ why, s.masterStep exec = some (s.setMaster (.panicked why)) := by
        rw [System.masterStep, htodo, hpc]
        exact ⟨_, if_neg htag⟩
      obtain ⟨why, hs⟩ := hs
      exact h.leads_of_step htags hs fun h' => absurd rfl (h'.orderly.master why)

/-- **The orphan phase can be completed.** -/
theorem Closing.leads (h : Closing exec return_to s₁ s)
    (htags : ∀ tx ∈ s₁.master.orphanPool, tx.tag = .orphan) :
    Leads (System.step exec) System.Acts (fun s' => s'.MasterPanicked ∨
      s'.master.todo = [] ∧ s'.master.pc.Returned return_to) s := by
  refine (performs (I := Closing exec return_to s₁) ?_ h).bind fun s₂ ⟨h₂, htodo₂⟩ => ?_
  · intro s effect todo h htodo
    obtain ⟨w, payload, rfl⟩ := h.todo effect (by rw [htodo]; exact List.mem_cons_self ..)
    exact ⟨h.perform htodo, rfl⟩
  · obtain ⟨tail, -, -, hreplays | hdone⟩ := h₂.progress
    · cases hpc : s₂.master.pc with
      | executeOrphanPool r rest =>
        rw [hpc] at hreplays
        exact hreplays.1 ▸ h₂.looping_leads htags htodo₂ hpc
      | executingOrphan r tx code rest =>
        rw [hpc] at hreplays
        obtain rfl := hreplays.1
        refine (h₂.executing_leads htags htodo₂ hpc).bind fun s₃ h₃ => ?_
        rcases h₃ with hpanic | ⟨h₃, htodo₃, hpc₃⟩
        · exact .now (.inl hpanic)
        · exact h₃.looping_leads htags htodo₃ hpc₃
      | _ =>
        rw [hpc] at hreplays
        exact hreplays.elim
    · refine .now (.inr ⟨htodo₂, ?_⟩)
      rw [hdone.pc]
      exact s₂.finish_returned return_to

end

/-! ## Validation -/

section
variable {exec : Executor} {block orphans : List Transaction} {s : System} {w : ThreadId}

/-- Nothing is left for the worker. -/
def Worker.Finished (wk : Worker) : Prop :=
  wk.fromMaster = [] ∧ (wk.pc = .park ∨ wk.pc = .recvTask)

/-- A worker that waits in validation has reported. -/
theorem Validator.finished {workers toOthers : List ThreadId} {share executed : List Transaction}
    {pc : Pc} {token : Bool} {inbox reports : List MessagePayload}
    (h : Validator workers share pc toOthers inbox executed reports) (hwaits : pc.Waits token inbox)
    (hsleep : pc = .park → token = false → ∀ payload ∈ inbox, payload.isCommand = false) :
    inbox = [] ∧ (pc = .park ∨ pc = .recvTask) ∨ ∃ why, pc = .dispatchPanicked why := by
  cases h with
  | ready hready =>
    cases hready with
    | setup | recvTask => cases hwaits.2
    | park => cases hsleep rfl hwaits _ (List.mem_cons_self ..)
    | draining hpc =>
      rcases hpc with rfl | rfl
      · cases hwaits.2
      · exact hwaits.1.elim
  | @depleting _ rest => cases rest <;> cases hwaits.2
  | executing | reporting => exact hwaits.1.elim
  | reported hpc => exact .inl ⟨rfl, hpc⟩
  | panicked => exact .inr ⟨_, rfl⟩

/-- The workers have reported, or their reports are under way. -/
structure Validation.Reporting (exec : Executor) (block orphans : List Transaction) (s : System) :
    Prop where
  validation : Validation exec block orphans s
  todo : s.master.todo = []
  finished : ∀ w ∈ exec.workers, (s.worker w).Finished

/-- The master has received as many reports as there are workers when it has received all. -/
theorem Validation.Reporting.count (h : Validation.Reporting exec block orphans s)
    (hempty : ∀ w ∈ exec.workers, (s.worker w).toMaster = []) :
    (collectedAll s.log).length = exec.workers.length := by
  have hone : ∀ w ∈ exec.workers, (collectedFrom w s.log).length = 1 := by
    intro w hw
    have hworker := h.validation.workers w hw
    rw [hempty w hw, List.append_nil, h.todo, List.filterMap_nil, List.append_nil] at hworker
    obtain ⟨hinbox, hpc⟩ := h.finished w hw
    obtain ⟨-, ⟨hinbox', -, -⟩ | ⟨-, -, hreports⟩⟩ := hworker.of_waiting hpc
    · cases hinbox.symm.trans hinbox'
    · rw [hreports]
      rfl
  have hperm := (Tally.perm_flatMap exec.nodup h.validation.senders some).length_eq
  rw [List.length_flatMap] at hperm
  simp only [Tally.of, List.filterMap_some, ← collectedFrom_eq] at hperm
  rw [List.map_congr_left hone, List.length_filterMap_eq_countP] at hperm
  simpa using hperm

/-- The master receives a report. -/
theorem Validation.Reporting.collect (h : Validation.Reporting exec block orphans s) {n : Nat}
    (hpc : s.master.pc = .collectReports n) (hw : w ∈ exec.workers)
    (hne : (s.worker w).toMaster ≠ []) : ∃ s', s.collect w = some s' ∧
      Validation.Reporting exec block orphans s' ∧ ∃ n', s'.master.pc = .checkReports n' := by
  have hsome : ∃ s', s.collect w = some s' ∧
      ((∃ n', s'.master.pc = .checkReports n') ∨ ∃ why, s'.master.pc = .panicked why) := by
    cases hq : (s.worker w).toMaster with
    | nil => exact absurd hq hne
    | cons payload rest =>
      unfold System.collect
      rw [h.todo, hpc, hq]
      dsimp only
      split
      · exact ⟨_, rfl, .inl ⟨_, rfl⟩⟩
      · exact ⟨_, rfl, .inr ⟨_, rfl⟩⟩
  obtain ⟨s', hs, hpc'⟩ := hsome
  obtain ⟨payload, rest, -, hworker, htodo⟩ := System.collect_worker hs
  have hvalidation := h.validation.collect hw hs
  refine ⟨s', hs, ⟨hvalidation, htodo, fun v hv => ?_⟩, hpc'.resolve_right ?_⟩
  · rw [hworker]
    by_cases hvw : v = w
    · subst hvw
      rw [Function.update_self]
      exact h.finished v hv
    · rw [Function.update_of_ne hvw]
      exact h.finished v hv
  · rintro ⟨why, hpanic⟩
    obtain ⟨n', -, hpc'' | hpc''⟩ := hvalidation.master <;> cases hpanic.symm.trans hpc''

/-- **The reports can all be received.** -/
theorem Validation.Reporting.leads (h : Validation.Reporting exec block orphans s) {n : Nat}
    (hpc : s.master.pc = .collectReports n ∨ s.master.pc = .checkReports n) :
    Leads (System.step exec) System.Acts
      (fun s' => ∃ s₁, AllReported exec block orphans s₁ ∧ s' = s₁.leaveReports) s := by
  have hcheck : ∀ s, (Validation.Reporting exec block orphans s ∧ ∃ n, s.master.pc = .checkReports n) →
      Leads (System.step exec) System.Acts (fun s' =>
        (∃ s₁, AllReported exec block orphans s₁ ∧ s' = s₁.leaveReports) ∨
        (Validation.Reporting exec block orphans s' ∧ ∃ n, s'.master.pc = .collectReports n) ∧
          s'.undelivered exec ≤ s.undelivered exec) s := by
    rintro s ⟨h, n, hpc⟩
    obtain ⟨n', hcount, hpc'⟩ := h.validation.master
    obtain rfl : n' = n := by
      rcases hpc' with hpc' | hpc' <;> cases hpc.symm.trans hpc'
      rfl
    by_cases hn : n' = exec.workers.length
    · have hs : s.masterStep exec = some s.leaveReports := by
        rw [System.masterStep, h.todo, hpc]
        exact if_pos hn
      exact .next (a := .master) trivial hs
        (.now (.inl ⟨s, h.validation.allReported h.todo (hcount ▸ hn), rfl⟩))
    · have hs : s.masterStep exec = some (s.setMaster (.collectReports n')) := by
        rw [System.masterStep, h.todo, hpc]
        exact if_neg hn
      have hvalidation : Validation exec block orphans (s.setMaster (.collectReports n')) :=
        ⟨h.validation.workers, h.validation.fromOthers, h.validation.todo, h.validation.orphanPool,
          h.validation.record, n', hcount, .inl rfl⟩
      exact .next (a := .master) trivial hs
        (.now (.inr ⟨⟨⟨hvalidation, h.todo, h.finished⟩, n', rfl⟩, Nat.le_refl _⟩))
  have hcollecting : ∀ s, (Validation.Reporting exec block orphans s ∧
      ∃ n, s.master.pc = .collectReports n) → Leads (System.step exec) System.Acts
        (fun s' => ∃ s₁, AllReported exec block orphans s₁ ∧ s' = s₁.leaveReports) s := by
    intro s hs
    refine receives_all
      (J := fun s => Validation.Reporting exec block orphans s ∧ ∃ n, s.master.pc = .collectReports n)
      (K := fun s => Validation.Reporting exec block orphans s ∧ ∃ n, s.master.pc = .checkReports n)
      hcheck ?_ ?_ hs
    · rintro s ⟨h, n, hpc⟩ w hw hne
      exact h.collect hpc hw hne
    rintro s ⟨h, n, hpc⟩ hempty
    obtain ⟨n', hcount, hpc'⟩ := h.validation.master
    obtain rfl : n' = n := by
      rcases hpc' with hpc' | hpc' <;> cases hpc.symm.trans hpc'
      rfl
    -- It finds nothing, and then that it has everything.
    have hs : s.masterStep exec = some (s.setMaster (.checkReports n')) := by
      rw [System.masterStep, h.todo, hpc]
    have hs' : (s.setMaster (.checkReports n')).masterStep exec =
        some (s.setMaster (.checkReports n')).leaveReports := by
      rw [System.masterStep, show (s.setMaster (.checkReports n')).master.todo = [] from h.todo]
      exact if_pos (hcount.trans (h.count hempty))
    have hvalidation : Validation exec block orphans (s.setMaster (.checkReports n')) :=
      ⟨h.validation.workers, h.validation.fromOthers, h.validation.todo, h.validation.orphanPool,
        h.validation.record, n', hcount, .inr rfl⟩
    exact .next (a := .master) trivial hs (.next (a := .master) trivial hs'
      (.now ⟨_, hvalidation.allReported h.todo (h.count hempty), rfl⟩))
  rcases hpc with hpc | hpc
  · exact hcollecting s ⟨h, n, hpc⟩
  · refine (hcheck s ⟨h, n, hpc⟩).bind fun s' h' => ?_
    rcases h' with hdone | ⟨hj, -⟩
    · exact .now hdone
    · exact hcollecting s' hj

/-- **A validation can be completed.** -/
theorem Validation.leads (h : Validation exec block orphans s) (hattentive : s.Attentive exec)
    (horphans : ∀ tx ∈ orphans, tx.tag = .orphan) :
    Leads (System.step exec) System.Acts (fun s' => s'.DispatchPanicked exec ∨
      s'.master.todo = [] ∧ s'.master.pc.Returned .validate) s := by
  refine (performs (I := fun s => Validation exec block orphans s ∧ s.Attentive exec) ?_
    ⟨h, hattentive⟩).bind fun s₁ ⟨⟨h₁, hattentive₁⟩, htodo₁⟩ => ?_
  · rintro s effect todo ⟨h, hattentive⟩ htodo
    have heffect : effect.OfValidation := h.todo effect (by rw [htodo]; exact List.mem_cons_self ..)
    refine ⟨⟨h.perform htodo, hattentive.perform htodo⟩, ?_⟩
    cases effect <;> first | rfl | exact heffect.elim
  · refine (workers_wait
      (I := fun s => (Validation exec block orphans s ∧ s.Attentive exec) ∧ s.master.todo = [])
      (D := Worker.Finished) ?_ (fun s hi => hi.1.2) ?_ (fun _ _ hd => hd)
      ⟨⟨h₁, hattentive₁⟩, htodo₁⟩).bind fun s₂ h₂ => ?_
    · rintro w hw s m ⟨⟨h, hattentive⟩, htodo⟩ hm
      exact .inl ⟨⟨h.worker_step hw hm, hattentive.step (.worker hw hm)⟩, htodo⟩
    · rintro w hw s ⟨⟨h, hattentive⟩, htodo⟩ hwaits
      have hworker := h.workers w hw
      rw [htodo, List.filterMap_nil, List.append_nil] at hworker
      rcases hworker.finished hwaits (hattentive.awake.sleep w hw) with hfinished | ⟨why, hpc⟩
      · exact .inl hfinished
      · exact .inr (.inl ⟨w, hw, why, hpc⟩)
    · rcases h₂ with hpanic | ⟨⟨⟨h₂, -⟩, htodo₂⟩, hfinished⟩
      · exact .now (.inl hpanic)
      · obtain ⟨n, -, hpc⟩ := h₂.master
        have hreporting : Validation.Reporting exec block orphans s₂ := ⟨h₂, htodo₂, hfinished⟩
        refine (hreporting.leads hpc).bind fun s₃ ⟨s', hreported, hs₃⟩ => ?_
        subst hs₃
        rw [← hreported.orphanPool] at horphans
        exact (hreported.closing.leads horphans).mono fun _ h => h.imp_left .inr

end
end
end SonicChain
