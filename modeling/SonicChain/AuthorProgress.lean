import SonicChain.CallProgress

/-! # An authoring can be completed

The master sends the orders, the workers go through them, and then take what has been
forwarded to them: that is not forwarded again, so it comes to an end.  What they have sent
to the master it receives, and then its exit condition holds.
-/

namespace SonicChain
open Worker Transition

section
variable [Ed25519]

/-! ## The orders -/

section
variable {exec : Executor} {pool : Pool} {data₀ : Key → Value} {fresh : ThreadId → Prop}
  {s s' : System} {w : ThreadId}

/-- The worker looks for messages, and the master has sent none. -/
def Worker.Polls (wk : Worker) : Prop := wk.pc = .pollMaster ∧ wk.fromMaster = []

/-- A worker that waits in authoring polls. -/
theorem Stand.polls_of_waits {workers toOthers : List ThreadId} {fresh : Prop} {pc : Pc}
    {token : Bool} {inbox : List MessagePayload} {ran : List Transaction}
    {reports : List (Nat × Nat)} (h : Stand workers pool w fresh pc toOthers inbox ran reports)
    (hwaits : pc.Waits token inbox)
    (hsleep : pc = .park → token = false → ∀ payload ∈ inbox, payload.isCommand = false) :
    pc = .pollMaster ∧ inbox = [] := by
  cases h with
  | setup | recvTask => cases hwaits.2
  | park => cases hsleep rfl hwaits _ (List.mem_cons_self ..)
  | draining hpc =>
    rcases hpc with rfl | rfl
    · cases hwaits.2
    · exact hwaits.1.elim
  | @depleting _ _ _ _ rest => cases rest <;> cases hwaits.2
  | reporting => exact hwaits.1.elim
  | polling hpc =>
    rcases hpc with rfl | rfl
    · exact ⟨rfl, rfl⟩
    · exact hwaits.1.elim
  | zeroth hpc | first hpc | second hpc => cases hpc <;> exact hwaits.1.elim

/-- The master has sent all orders, and is in the collection loop. -/
structure Authoring.Distributed (exec : Executor) (pool : Pool) (data₀ : Key → Value)
    (fresh : ThreadId → Prop) (s : System) : Prop where
  authoring : Authoring exec pool data₀ fresh s
  attentive : s.Attentive exec
  todo : s.master.todo = []
  pc : ∃ c, s.master.pc = .collect c ∨ s.master.pc = .check c

theorem Authoring.Distributed.pending (h : Authoring.Distributed exec pool data₀ fresh s)
    (w : ThreadId) : s.master.pending pool w = [] := by
  obtain ⟨c, hpc | hpc⟩ := h.pc <;> rw [Master.pending, h.todo, hpc] <;> rfl

theorem Authoring.Distributed.polls (h : Authoring.Distributed exec pool data₀ fresh s)
    (hw : w ∈ exec.workers) (hwaits : (s.worker w).Waits) : (s.worker w).Polls := by
  have hstand := (h.authoring.workers w hw).stand
  rw [h.pending, List.append_nil] at hstand
  exact hstand.polls_of_waits hwaits (h.attentive.awake.sleep w hw)

/-- A worker that polls has reported. -/
theorem Authoring.Distributed.reported (h : Authoring.Distributed exec pool data₀ fresh s)
    (hw : w ∈ exec.workers) (hpolls : (s.worker w).Polls) :
    (sentBy w s.log).filterMap MessagePayload.report? ≠ [] := by
  have hstand := (h.authoring.workers w hw).stand
  rw [h.pending, List.append_nil] at hstand
  rcases hstand.of_polling (.inl hpolls.1) with hlingers | hreported
  · cases hpolls.2.symm.trans hlingers.2.1
  · obtain ⟨-, -, e, f, _, _, _, -, hreports, -⟩ := hreported
    rw [hreports]
    exact List.cons_ne_nil _ _

/-- The master sends the orders. -/
theorem Authoring.distributes_leads (h : Authoring exec pool data₀ fresh s)
    (hattentive : s.Attentive exec) (hpool : Assigned exec pool) :
    Leads (System.step exec) System.Acts (Authoring.Distributed exec pool data₀ fresh) s := by
  have hperforms : ∀ (pc : Master.Pc) (s : System), Authoring exec pool data₀ fresh s →
      s.Attentive exec → s.master.pc = pc → Leads (System.step exec) System.Acts
        (fun s' => ((Authoring exec pool data₀ fresh s' ∧ s'.Attentive exec) ∧ s'.master.pc = pc) ∧
          s'.master.todo = []) s := by
    intro pc s h hattentive hpc
    refine performs ?_ ⟨⟨h, hattentive⟩, hpc⟩
    rintro s effect todo ⟨⟨h, hattentive⟩, hpc⟩ htodo
    refine ⟨⟨⟨h.perform htodo, hattentive.perform htodo⟩, ?_⟩, ?_⟩
    all_goals
      obtain ⟨u, rfl⟩ | ⟨u, payload, rfl⟩ :=
        h.todo effect (by rw [htodo]; exact List.mem_cons_self ..)
    · exact hpc
    · exact hpc
    · rfl
    · rfl
  have hloop : ∀ (s : System) (c : Master.Counters), Authoring exec pool data₀ fresh s →
      s.Attentive exec → (s.master.pc = .collect c ∨ s.master.pc = .check c) →
      Leads (System.step exec) System.Acts (Authoring.Distributed exec pool data₀ fresh) s := by
    intro s c h hattentive hpc
    refine (hperforms s.master.pc s h hattentive rfl).mono fun s' h' => ?_
    obtain ⟨⟨⟨h', hattentive'⟩, hpc'⟩, htodo'⟩ := h'
    exact ⟨h', hattentive', htodo', c, by rw [hpc']; exact hpc⟩
  have hmaster := h.master
  rw [MasterInv] at hmaster
  cases hpc : s.master.pc with
  | concurrentPhase =>
    refine (hperforms .concurrentPhase s h hattentive hpc).bind fun s₁ h₁ => ?_
    obtain ⟨⟨⟨h₁, hattentive₁⟩, hpc₁⟩, htodo₁⟩ := h₁
    obtain ⟨hdistribute, h₂⟩ := h₁.distribute hpool htodo₁ hpc₁
    have hs : s₁.masterStep exec = some { s₁ with master := { s₁.master with
        txPool := pool
        todo := Master.distributeEffects exec.workers pool
        pc := .collect ⟨0, 0, 0, 0, pool.length⟩ } } := by
      rw [System.masterStep, htodo₁, hpc₁]
      simp only [hdistribute]
    exact .next (a := .master) trivial hs
      (hloop _ _ h₂ (hattentive₁.step (.master hs)) (.inl rfl))
  | collect c => exact hloop s c h hattentive (.inl hpc)
  | check c => exact hloop s c h hattentive (.inr hpc)
  | _ =>
    rw [hpc] at hmaster
    exact hmaster.elim

/-- The orders are sent, and the workers have gone through them. -/
structure Authoring.Polling (exec : Executor) (pool : Pool) (data₀ : Key → Value)
    (fresh : ThreadId → Prop) (s : System) : Prop where
  distributed : Authoring.Distributed exec pool data₀ fresh s
  polls : ∀ w ∈ exec.workers, (s.worker w).Polls

/-- **The workers can go through their orders.** -/
theorem Authoring.Distributed.leads (h : Authoring.Distributed exec pool data₀ fresh s)
    (hpool : Assigned exec pool) : Leads (System.step exec) System.Acts
      (fun s' => s'.DispatchPanicked exec ∨ Authoring.Polling exec pool data₀ fresh s') s := by
  refine (workers_wait (I := Authoring.Distributed exec pool data₀ fresh) (D := Worker.Polls) ?_
    (fun s h => h.attentive) (fun w hw s h hwaits => .inl (h.polls hw hwaits)) (fun _ _ hd => hd)
    h).mono fun s' h' => h'.imp_right fun ⟨h', hpolls⟩ => ⟨h', hpolls⟩
  intro w hw s m h hm
  rcases h.authoring.worker_step hpool hw hm with h' | ⟨why, hpc⟩
  · exact .inl ⟨h', h.attentive.step (.worker hw hm), h.todo, h.pc⟩
  · exact .inr (.inl ⟨w, hw, why, by rw [System.applyMove_pc_self, hpc]⟩)

/-! ## What has been forwarded -/

/-- A transaction that was forwarded already is not forwarded again. -/
theorem executeOrForward_not_forwards {id : ThreadId} {wk : Worker} {state : StateMap} {job : Job}
    {result : RuntimeDispatchResult} (h : job.tx.execStatus = .forwarded) :
    (executeOrForward id wk state job result).forward = none := by
  unfold executeOrForward
  dsimp only
  rw [h]
  repeat' split
  all_goals first
    | rfl
    | (rename_i hinitial _ _; cases hinitial)

/-- **A worker that has reported forwards nothing.** -/
theorem Authoring.forwards_nothing (h : Authoring exec pool data₀ fresh s) (hw : w ∈ exec.workers)
    (hreported : (sentBy w s.log).filterMap MessagePayload.report? ≠ []) {m : Move}
    (hstep : Step w (s.worker w) s.state m) : m.forward = none := by
  have hstand := (h.workers w hw).stand
  cases hstep with
  | access hpc hkey =>
    unfold Worker.access
    split
    · rfl
    · split <;> rfl
  | accessRecheck hpc hkey =>
    unfold Worker.accessRecheck
    split <;> rfl
  | settle hres =>
    obtain ⟨-, ⟨-, -, -, hlingers⟩ | ⟨e, f, early, before, rest, own, -, -, -, -, hreports, -⟩ |
      ⟨-, ⟨t, -, -, htx⟩, -⟩⟩ := hstand.of_executes hres.executes
    · exact absurd hlingers.2.2.2 hreported
    · exact absurd hreports hreported
    · exact executeOrForward_not_forwards (by rw [htx])
  | _ => rfl

/-- The worker goes on by itself, after its report, and nobody else does anything. -/
structure Authoring.Serving (exec : Executor) (pool : Pool) (data₀ : Key → Value)
    (fresh : ThreadId → Prop) (w : ThreadId) (s s' : System) : Prop where
  authoring : Authoring exec pool data₀ fresh s'
  attentive : s'.Attentive exec
  master : s'.master = s.master
  others : ∀ v, v ≠ w → s'.worker v = s.worker v
  reported : (sentBy w s'.log).filterMap MessagePayload.report? ≠ []

theorem Authoring.Serving.move (h : Authoring.Serving exec pool data₀ fresh w s s')
    (hpool : Assigned exec pool) (hw : w ∈ exec.workers) {m : Move}
    (hstep : Step w (s'.worker w) s'.state m) : (s'.applyMove w m).worker w = m.worker ∧
      (Authoring.Serving exec pool data₀ fresh w s (s'.applyMove w m) ∨
        ∃ why, m.worker.pc = .dispatchPanicked why) := by
  have hforward := h.authoring.forwards_nothing hw h.reported hstep
  refine ⟨applyMove_worker_self hforward, ?_⟩
  refine (h.authoring.worker_step hpool hw hstep).imp_left fun h' => ?_
  refine ⟨h', h.attentive.step (.worker hw hstep), h.master, fun v hv => ?_, ?_⟩
  · rw [applyMove_worker_other hforward hv]
    exact h.others v hv
  · show (sentBy w (s'.log ++ m.events)).filterMap _ ≠ []
    rw [sentBy_append, List.filterMap_append]
    exact List.append_ne_nil_of_left_ne_nil h.reported _

/-- **The worker takes a transaction that has been forwarded to it**, and comes back to
look for more. -/
theorem Authoring.Polling.serves (h : Authoring.Polling exec pool data₀ fresh s)
    (hpool : Assigned exec pool) (hw : w ∈ exec.workers) {v : ThreadId} {payload : MessagePayload}
    {rest : List MessagePayload} (hq : (s.worker w).fromOthers v = payload :: rest) :
    Leads (System.step exec) System.Acts (fun s' => s'.DispatchPanicked exec ∨
      Authoring.Polling exec pool data₀ fresh s' ∧
        (s'.worker w).fromOthers = Function.update (s.worker w).fromOthers v rest ∧
        ∀ u, u ≠ w → s'.worker u = s.worker u) s := by
  obtain ⟨hpc, hempty⟩ := h.polls w hw
  have hv : v ∈ exec.workers := by
    by_contra hv
    rw [h.distributed.attentive.senders w hw v hv] at hq
    cases hq
  obtain ⟨tx, -, -, rfl⟩ := (h.distributed.authoring.workers w hw).queues v payload
    (by rw [hq]; exact List.mem_cons_self ..)
  have h₀ : Authoring.Serving exec pool data₀ fresh w s s :=
    ⟨h.distributed.authoring, h.distributed.attentive, rfl, fun _ _ => rfl,
      h.distributed.reported hw (h.polls w hw)⟩
  -- It looks at the queues of the others,
  have hm₁ : Worker.step w (s.worker w) s.state =
      some (quiet { s.worker w with pc := .pollOthers } s.state) := by
    rw [Worker.step, hpc]
    dsimp only
    rw [hempty]
  obtain ⟨hself₁, h₁⟩ := h₀.move hpool hw (.of_step hm₁)
  have h₁ := h₁.resolve_right (by rintro ⟨why, hpanic⟩; cases hpanic)
  have hs₁ : s.step exec (.worker w) =
      some (s.applyMove w (quiet { s.worker w with pc := .pollOthers } s.state)) := by
    rw [System.step, if_pos hw, hm₁]
    rfl
  refine .next (a := .worker w) (fun hpark => by cases hpc.symm.trans hpark) hs₁ ?_
  -- finds the transaction,
  generalize s.applyMove w (quiet { s.worker w with pc := .pollOthers } s.state) = s₁ at h₁ hself₁ ⊢
  have hm₂ : Worker.receive w (s₁.worker w) s₁.state v = some (start w { s₁.worker w with
      fromOthers := Function.update (s₁.worker w).fromOthers v rest } s₁.state .runAuthor (some v)
      { tx with execStatus := .forwarded }) := by
    rw [Worker.receive, hself₁]
    simp only [quiet, hq]
  obtain ⟨hself₂, h₂⟩ := h₁.move hpool hw (.of_receive hm₂)
  have h₂ := h₂.resolve_right (by rintro ⟨why, hpanic⟩; cases hpanic)
  have hs₂ : s₁.step exec (.receive w v) = some (s₁.applyMove w (start w { s₁.worker w with
      fromOthers := Function.update (s₁.worker w).fromOthers v rest } s₁.state .runAuthor (some v)
      { tx with execStatus := .forwarded })) := by
    rw [System.step, if_pos ⟨hw, hv⟩, hm₂]
    rfl
  refine .next (a := .receive w v) trivial hs₂ ?_
  -- and goes on until it waits.
  have hqueues : ((s₁.applyMove w (start w { s₁.worker w with
      fromOthers := Function.update (s₁.worker w).fromOthers v rest } s₁.state .runAuthor (some v)
      { tx with execStatus := .forwarded })).worker w).fromOthers =
        Function.update (s.worker w).fromOthers v rest := by
    rw [hself₂]
    show Function.update (s₁.worker w).fromOthers v rest = _
    rw [hself₁]
    rfl
  generalize s₁.applyMove w _ = s₂ at h₂ hqueues ⊢
  have hkept : ∀ s₃ a s₄, s₃.Alone w a →
      (Authoring.Serving exec pool data₀ fresh w s s₃ ∧
          (s₃.worker w).fromOthers = Function.update (s.worker w).fromOthers v rest ∨
        s₃.DispatchPanicked exec) → s₃.step exec a = some s₄ →
      (Authoring.Serving exec pool data₀ fresh w s s₄ ∧
          (s₄.worker w).fromOthers = Function.update (s.worker w).fromOthers v rest ∨
        s₄.DispatchPanicked exec) := by
    rintro s₃ a s₄ ha (⟨h₃, hqueues₃⟩ | hpanic) hs
    · obtain ⟨m, hm, hsame, rfl⟩ := ha.move hs
      obtain ⟨hself, h₄⟩ := h₃.move hpool hw hm
      rcases h₄ with h₄ | ⟨why, hpanic⟩
      · refine .inl ⟨h₄, ?_⟩
        rw [hself, hsame, hqueues₃]
      · exact .inr (.inl ⟨w, hw, why, by rw [hself, hpanic]⟩)
    · exact .inr (hpanic.step (System.threads_of_step ha.acts.ofThread hs))
  refine (((worker_waits hw (h₂.attentive.keyed w hw)).along hkept (.inl ⟨h₂, hqueues⟩)).weaken
    fun _ _ ha => ha.acts).mono ?_
  rintro s₃ ⟨⟨h₃, hqueues₃⟩ | hpanic, hwaits⟩
  · obtain ⟨c, hcollect⟩ := h.distributed.pc
    have hdistributed : Authoring.Distributed exec pool data₀ fresh s₃ :=
      ⟨h₃.authoring, h₃.attentive, by rw [h₃.master, h.distributed.todo], c, by
        rw [h₃.master]
        exact hcollect⟩
    refine .inr ⟨⟨hdistributed, fun u hu => ?_⟩, hqueues₃, h₃.others⟩
    by_cases huw : u = w
    · subst huw
      exact hdistributed.polls hu hwaits
    · rw [h₃.others u huw]
      exact h.polls u hu
  · exact .inl hpanic

/-- Nothing that has been forwarded is left. -/
def Worker.Served (wk : Worker) : Prop := ∀ v, wk.fromOthers v = []

/-- **The worker can take everything that has been forwarded to it.** -/
theorem Authoring.Polling.serves_all (h : Authoring.Polling exec pool data₀ fresh s)
    (hpool : Assigned exec pool) (hw : w ∈ exec.workers) :
    Leads (System.step exec) System.Acts (fun s' => s'.DispatchPanicked exec ∨
      Authoring.Polling exec pool data₀ fresh s' ∧ (s'.worker w).Served ∧
        ∀ u, u ≠ w → s'.worker u = s.worker u) s := by
  refine Leads.of_measure
    (I := fun s' => Authoring.Polling exec pool data₀ fresh s' ∧ ∀ u, u ≠ w → s'.worker u = s.worker u)
    (fun s' => (exec.workers.map fun v => ((s'.worker w).fromOthers v).length).sum)
    (fun s₁ ⟨h₁, hothers⟩ => ?_) ⟨h, fun _ _ => rfl⟩
  by_cases hserved : (s₁.worker w).Served
  · exact .now (.inl (.inr ⟨h₁, hserved, hothers⟩))
  · obtain ⟨v, hne⟩ : ∃ v, (s₁.worker w).fromOthers v ≠ [] := by
      by_contra hnone
      exact hserved fun v => by_contra fun hne => hnone ⟨v, hne⟩
    obtain ⟨payload, rest, hq⟩ := List.exists_cons_of_ne_nil hne
    have hv : v ∈ exec.workers := by
      by_contra hv
      exact hne (h₁.distributed.attentive.senders w hw v hv)
    refine (h₁.serves hpool hw hq).mono ?_
    rintro s₂ (hpanic | ⟨h₂, hqueues, hothers₂⟩)
    · exact .inl (.inl hpanic)
    · refine .inr ⟨⟨h₂, fun u hu => (hothers₂ u hu).trans (hothers u hu)⟩, ?_⟩
      rw [hqueues]
      refine List.sum_lt_sum _ _ (fun u _ => ?_) ⟨v, hv, ?_⟩
      · by_cases huv : u = v
        · subst huv
          rw [Function.update_self, hq]
          exact Nat.le_succ _
        · rw [Function.update_of_ne huv]
      · rw [Function.update_self, hq]
        exact Nat.lt_succ_self _

/-- All workers have done what there was to do for them. -/
structure Authoring.Drained (exec : Executor) (pool : Pool) (data₀ : Key → Value)
    (fresh : ThreadId → Prop) (s : System) : Prop where
  polling : Authoring.Polling exec pool data₀ fresh s
  served : ∀ w ∈ exec.workers, (s.worker w).Served

/-- **Everything that has been forwarded can be taken.** -/
theorem Authoring.Polling.leads (h : Authoring.Polling exec pool data₀ fresh s)
    (hpool : Assigned exec pool) : Leads (System.step exec) System.Acts
      (fun s' => s'.DispatchPanicked exec ∨ Authoring.Drained exec pool data₀ fresh s') s := by
  have hone : ∀ w ∈ exec.workers, ∀ s, Authoring.Polling exec pool data₀ fresh s →
      Leads (System.step exec) System.Acts (fun s' => s'.DispatchPanicked exec ∨
        Authoring.Polling exec pool data₀ fresh s' ∧ (s'.worker w).Served ∧
          ∀ v ∈ exec.workers, (s.worker v).Served → (s'.worker v).Served) s := by
    intro w hw s h
    refine (h.serves_all hpool hw).mono fun s' h' => h'.imp_right ?_
    rintro ⟨h', hserved, hothers⟩
    refine ⟨h', hserved, fun v hv hdone => ?_⟩
    by_cases hvw : v = w
    · exact hvw ▸ hserved
    · rw [hothers v hvw]
      exact hdone
  exact (Leads.each (B := System.DispatchPanicked exec) (D := fun w s => (s.worker w).Served)
    hone h).mono fun s' h' => h'.imp_right fun ⟨h', hserved⟩ => ⟨h', hserved⟩

/-! ## The collection -/

theorem Authoring.Drained.authoring (h : Authoring.Drained exec pool data₀ fresh s) :
    Authoring exec pool data₀ fresh s := h.polling.distributed.authoring

/-- The workers stay where they are while the master goes on. -/
theorem Authoring.Drained.of_master (h : Authoring.Drained exec pool data₀ fresh s)
    (h' : Authoring exec pool data₀ fresh s') (hs : s.Threads exec s')
    (hworker : ∀ w ∈ exec.workers, (s'.worker w).pc = (s.worker w).pc ∧
      (s'.worker w).fromMaster = (s.worker w).fromMaster ∧
      (s'.worker w).fromOthers = (s.worker w).fromOthers)
    (htodo : s'.master.todo = []) (hpc : ∃ c, s'.master.pc = .collect c ∨ s'.master.pc = .check c) :
    Authoring.Drained exec pool data₀ fresh s' := by
  refine ⟨⟨⟨h', h.polling.distributed.attentive.step hs, htodo, hpc⟩, fun w hw => ?_⟩, fun w hw v => ?_⟩
  · obtain ⟨hpc', hqueue, -⟩ := hworker w hw
    exact ⟨hpc'.trans (h.polling.polls w hw).1, hqueue.trans (h.polling.polls w hw).2⟩
  · rw [(hworker w hw).2.2]
    exact h.served w hw v

/-- Once everything has been received, everything is settled. -/
theorem Authoring.Drained.resolved (h : Authoring.Drained exec pool data₀ fresh s)
    (hempty : ∀ w ∈ exec.workers, (s.worker w).toMaster = []) : Resolved exec pool fresh s := by
  refine h.authoring.resolved_of_quiet (fun w hw => ?_) fun w hw => ?_
  · have hreported := h.polling.distributed.reported hw (h.polling.polls w hw)
    obtain ⟨report, hreport⟩ := List.exists_mem_of_ne_nil _ hreported
    obtain ⟨payload, hpayload, hsome⟩ := List.mem_filterMap.mp hreport
    cases payload with
    | authoringReport e f => exact ⟨e, f, hpayload⟩
    | _ => cases hsome
  · obtain ⟨hpc, hqueue⟩ := h.polling.polls w hw
    exact ⟨by rw [hpc]; rfl, hqueue, h.served w hw, hempty w hw⟩

/-- The master leaves the loop at its exit condition. -/
theorem Authoring.Drained.leaves (h : Authoring.Drained exec pool data₀ fresh s)
    (hpool : Assigned exec pool) {c : Master.Counters} (hpc : s.master.pc = .check c)
    (hexit : Master.exitCondition exec.workers.length c s.master.orphanPool = true) :
    Leads (System.step exec) System.Acts
      (fun s' => ∃ s₁, Exited exec pool data₀ fresh s₁ ∧ s' = s₁.leaveLoop exec) s := by
  have hresolved := (h.authoring.exit_iff hpool (.inr hpc)).mp hexit
  have hcollected := h.authoring.collected (.inr hpc)
  have hs : s.masterStep exec = some (s.leaveLoop exec) := by
    rw [System.masterStep, h.polling.distributed.todo, hpc]
    dsimp only
    rw [if_pos hexit, if_pos (h.authoring.total_eq hpool (.inr hpc) hresolved)]
    rfl
  refine .next (a := .master) trivial hs (.now ⟨s, ⟨h.authoring, hresolved, ?_⟩, rfl⟩)
  rwa [← hcollected.counters]

/-- **The collection can be completed.** -/
theorem Authoring.Drained.leads (h : Authoring.Drained exec pool data₀ fresh s)
    (hpool : Assigned exec pool) : Leads (System.step exec) System.Acts
      (fun s' => ∃ s₁, Exited exec pool data₀ fresh s₁ ∧ s' = s₁.leaveLoop exec) s := by
  have hcheck : ∀ s, (Authoring.Drained exec pool data₀ fresh s ∧ ∃ c, s.master.pc = .check c) →
      Leads (System.step exec) System.Acts (fun s' =>
        (∃ s₁, Exited exec pool data₀ fresh s₁ ∧ s' = s₁.leaveLoop exec) ∨
        (Authoring.Drained exec pool data₀ fresh s' ∧ ∃ c, s'.master.pc = .collect c) ∧
          s'.undelivered exec ≤ s.undelivered exec) s := by
    rintro s ⟨h, c, hpc⟩
    cases hexit : Master.exitCondition exec.workers.length c s.master.orphanPool with
    | true => exact (h.leaves hpool hpc hexit).mono fun _ h => .inl h
    | false =>
      have hs : s.masterStep exec = some (s.setMaster (.collect c)) := by
        rw [System.masterStep, h.polling.distributed.todo, hpc]
        dsimp only
        rw [hexit]
        rfl
      have hnext := h.of_master (h.authoring.loop (.inr hpc) (.inl rfl)) (.master hs)
        (fun _ _ => ⟨rfl, rfl, rfl⟩) h.polling.distributed.todo ⟨c, .inl rfl⟩
      exact .next (a := .master) trivial hs (.now (.inr ⟨⟨hnext, c, rfl⟩, Nat.le_refl _⟩))
  have hcollect : ∀ s, (Authoring.Drained exec pool data₀ fresh s ∧ ∃ c, s.master.pc = .collect c) →
      ∀ w ∈ exec.workers, (s.worker w).toMaster ≠ [] → ∃ s', s.collect w = some s' ∧
        Authoring.Drained exec pool data₀ fresh s' ∧ ∃ c, s'.master.pc = .check c := by
    rintro s ⟨h, c, hpc⟩ w hw hne
    have hsome : ∃ s', s.collect w = some s' ∧
        ((∃ c', s'.master.pc = .check c') ∨ ∃ why, s'.master.pc = .panicked why) := by
      obtain ⟨payload, rest, hq⟩ := List.exists_cons_of_ne_nil hne
      unfold System.collect
      rw [h.polling.distributed.todo, hpc, hq]
      dsimp only
      split
      · exact ⟨_, rfl, .inl ⟨_, rfl⟩⟩
      · exact ⟨_, rfl, .inr ⟨_, rfl⟩⟩
    obtain ⟨s', hs, hpc'⟩ := hsome
    have hauthoring := h.authoring.collect hpool hw hs
    have hchecks : ∃ c', s'.master.pc = .check c' := by
      refine hpc'.resolve_right ?_
      rintro ⟨why, hpanic⟩
      have hmaster := hauthoring.master
      rw [MasterInv, hpanic] at hmaster
      exact hmaster
    obtain ⟨c', hpc'⟩ := hchecks
    obtain ⟨payload, rest, -, hworker, htodo⟩ := System.collect_worker hs
    refine ⟨s', hs, h.of_master hauthoring (.collect hw hs) (fun v hv => ?_) htodo ⟨c', .inr hpc'⟩,
      c', hpc'⟩
    rw [hworker]
    by_cases hvw : v = w
    · subst hvw
      rw [Function.update_self]
      exact ⟨rfl, rfl, rfl⟩
    · rw [Function.update_of_ne hvw]
      exact ⟨rfl, rfl, rfl⟩
  have hend : ∀ s, (Authoring.Drained exec pool data₀ fresh s ∧ ∃ c, s.master.pc = .collect c) →
      (∀ w ∈ exec.workers, (s.worker w).toMaster = []) → Leads (System.step exec) System.Acts
        (fun s' => ∃ s₁, Exited exec pool data₀ fresh s₁ ∧ s' = s₁.leaveLoop exec) s := by
    rintro s ⟨h, c, hpc⟩ hempty
    have hs : s.masterStep exec = some (s.setMaster (.check c)) := by
      rw [System.masterStep, h.polling.distributed.todo, hpc]
    have hnext := h.of_master (h.authoring.loop (.inl hpc) (.inr rfl)) (.master hs)
      (fun _ _ => ⟨rfl, rfl, rfl⟩) h.polling.distributed.todo ⟨c, .inr rfl⟩
    exact .next (a := .master) trivial hs (hnext.leaves hpool rfl
      ((hnext.authoring.exit_iff hpool (.inr rfl)).mpr (hnext.resolved hempty)))
  have hcollecting : ∀ s, (Authoring.Drained exec pool data₀ fresh s ∧
      ∃ c, s.master.pc = .collect c) → Leads (System.step exec) System.Acts
        (fun s' => ∃ s₁, Exited exec pool data₀ fresh s₁ ∧ s' = s₁.leaveLoop exec) s :=
    fun s hs => receives_all hcheck hcollect hend hs
  obtain ⟨c, hpc | hpc⟩ := h.polling.distributed.pc
  · exact hcollecting s ⟨h, c, hpc⟩
  · refine (hcheck s ⟨h, c, hpc⟩).bind fun s' h' => ?_
    rcases h' with hdone | ⟨hj, -⟩
    · exact .now hdone
    · exact hcollecting s' hj

/-- **An authoring can be completed.** -/
theorem Authoring.leads (h : Authoring exec pool data₀ fresh s) (hattentive : s.Attentive exec)
    (hpool : Assigned exec pool) : Leads (System.step exec) System.Acts
      (fun s' => s'.DispatchPanicked exec ∨
        s'.master.todo = [] ∧ s'.master.pc.Returned .author) s := by
  refine (h.distributes_leads hattentive hpool).bind fun s₁ h₁ => ?_
  refine (h₁.leads hpool).bind fun s₂ h₂ => ?_
  rcases h₂ with hpanic | h₂
  · exact .now (.inl hpanic)
  · refine (h₂.leads hpool).bind fun s₃ h₃ => ?_
    rcases h₃ with hpanic | h₃
    · exact .now (.inl hpanic)
    · refine (h₃.leads hpool).bind fun s₄ ⟨s', hexited, hs₄⟩ => ?_
      subst hs₄
      exact ((Closing.begin hexited).leads hexited.orphans).mono fun _ h => h.imp_left .inr

end
end
end SonicChain
