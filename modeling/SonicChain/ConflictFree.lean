import SonicChain.AuthoredBlock
import SonicChain.DispatchedCode
import SonicChain.Distributers

/-! # Authoring without conflicts

Where `ConnectedComponents` distributes calls that keep to their access lists, the keys
that a worker's transactions access are its own (`Separate`): no access is refused, so
nothing is forwarded (`Undisturbed`), and the block is the pool as it was submitted.
-/

namespace SonicChain
open Worker StoreProgram ConcurrentRuntime

section
variable [Ed25519]

/-! ## Separate shares -/

/-- A transaction of the worker may access the key. -/
def Pool.Reserves (pool : Pool) (w : ThreadId) (k : Key) : Prop :=
  ∃ tx ∈ pool.share w, k ∈ tx.accessList

/-- The calls keep to their access lists, which meet within the share of one worker
only. -/
structure Separate (pool : Pool) : Prop where
  complete : ∀ tx ∈ pool, tx.function.AccessComplete
  apart : ∀ w v k, pool.Reserves w k → pool.Reserves v k → w = v

/-- The executor distributes the transactions as the distributer does. -/
def Executor.DistributesBy (exec : Executor) (D : DistributerKind) (txs : List Transaction) : Prop :=
  ∃ fuel, D.distribute fuel exec.workers txs = some (exec.distribute exec.workers txs)

/-- **`ConnectedComponents` separates the shares** of calls that keep to their access
lists. -/
theorem separate_of_connectedComponents {exec : Executor} {txs : List Transaction}
    (hby : exec.DistributesBy .connectedComponents txs) (hworkers : exec.workers ≠ [])
    (htxs : txs ≠ []) (hids : (txs.map Transaction.id).Nodup)
    (hcalls : ∀ tx ∈ txs, tx.function.AccessComplete) :
    ∃ pool, Distributes exec txs pool ∧ Separate pool := by
  obtain ⟨worker, enough, hmem, hlinked, hruns⟩ :=
    distribute_returns exec.workers txs hworkers htxs hids
  obtain ⟨fuel, hby⟩ := hby
  have hpool : exec.distribute exec.workers txs =
      .ok (txs.mapIdx fun i t => { t with tag := .done (worker i) }) := by
    obtain ⟨heap, hdistribute⟩ := hruns (max enough fuel) (Nat.le_max_left ..)
    have hmore := distribute_extends (Nat.le_max_right enough fuel) exec.workers txs .empty
    rw [DistributerKind.distribute] at hby
    cases hresult : distribute fuel exec.workers txs .empty with
    | none => rw [hresult] at hby; cases hby
    | some result =>
      obtain rfl := Option.some.inj ((hmore result hresult).symm.trans hdistribute)
      rw [hresult] at hby
      exact (Option.some.inj hby).symm
  -- A transaction of the pool is one of those submitted, by its position.
  have hposition : ∀ {w : ThreadId} {t : Transaction},
      t ∈ Pool.share (txs.mapIdx fun i t => { t with tag := .done (worker i) }) w →
      ∃ i tx, txs[i]? = some tx ∧ worker i = w ∧ t.accessList = tx.accessList := by
    intro w t ht
    obtain ⟨hmem, htag⟩ := List.mem_filter.mp ht
    obtain ⟨i, hi, rfl⟩ := List.mem_mapIdx.mp hmem
    exact ⟨i, txs[i], List.getElem?_eq_getElem hi, ExecutionTag.done.inj (of_decide_eq_true htag), rfl⟩
  refine ⟨_, ⟨hpool, forall₂_mapIdx fun i tx => ⟨worker i, hmem i, rfl⟩⟩, fun t ht => ?_, ?_⟩
  · obtain ⟨i, hi, rfl⟩ := List.mem_mapIdx.mp ht
    exact hcalls txs[i] (List.getElem_mem hi)
  · rintro w v k ⟨t, ht, hk⟩ ⟨t', ht', hk'⟩
    obtain ⟨i, tx, hi, rfl, haccess⟩ := hposition ht
    obtain ⟨j, tx', hj, rfl, haccess'⟩ := hposition ht'
    rw [haccess] at hk
    rw [haccess'] at hk'
    exact hlinked i (List.getElem?_eq_some_iff.mp hi).1 j
      (.single ⟨tx, tx', hi, hj, k, hk, hk'⟩)

/-! ## Code that keeps to the worker's keys -/

/-- Only keys of the workers' transactions are tainted by them. -/
def TaintsReserved (pool : Pool) (state : StateMap) : Prop :=
  ∀ k v, Owns v state k → pool.Reserves v k

/-- What is left of a transaction of the worker, none of its accesses having been
refused. -/
def KeepsTo (pool : Pool) (w : ThreadId) (_ : StateMap)
    (code : Storage (Except DispatchError Unit)) : Prop :=
  Within (pool.Reserves w) code ∧ FailStop DispatchError.Reports Panic.IsExpect code

theorem Separate.keepsTo {pool : Pool} (h : Separate pool) {w : ThreadId} {tx : Transaction}
    (htx : tx ∈ pool.share w) (state : StateMap) : KeepsTo pool w state tx.code := by
  have hcomplete := h.complete tx (List.mem_filter.mp htx).1
  exact ⟨(OuterCall.within_dispatch tx.signature.1 hcomplete).mono fun k hk => ⟨tx, htx, hk⟩,
    tx.function.failStop_dispatch tx.signature.1⟩

/-- **A worker is refused nothing.** -/
theorem Separate.answers {pool : Pool} (h : Separate pool) (w : ThreadId) :
    Answers w (TaintsReserved pool) (KeepsTo pool w) := by
  refine ⟨?_, ?_, fun _ hcode => hcode⟩
  · rintro state state' code cache key outcome htaints ⟨hwithin, hstop⟩ hkey hanswer
    have hreserved : pool.Reserves w key := by
      cases code with
      | done result => cases hkey
      | fault why => cases hkey
      | read k next => exact Option.some.inj hkey ▸ hwithin.1
      | write k value next => exact Option.some.inj hkey ▸ hwithin.1
    have hgranted : ∃ value, outcome = .ok value := by
      cases hanswer with
      | owned value => exact ⟨value, rfl⟩
      | tainted => exact ⟨_, rfl⟩
      | refused howner hne => exact absurd (h.apart _ _ key (htaints key _ howner) hreserved) hne
    refine ⟨fun k v hk => ?_, ?_⟩
    · rcases hanswer.touch.taint_cases k with hsame | ⟨-, hnew⟩
      · exact htaints k v (hsame.symm.trans hk)
      · obtain rfl : v = w := Option.some.inj (hk.symm.trans hnew)
        cases hanswer with
        | owned => exact htaints k v hk
        | refused => exact htaints k v hk
        | tainted hnone =>
          by_cases hkk : k = key
          · exact hkk ▸ hreserved
          · refine htaints k v ?_
            rwa [Owns, StateType.taint_insert, Function.update_of_ne hkk] at hk
    · obtain ⟨value, rfl⟩ := hgranted
      cases code with
      | done result => cases hkey
      | fault why => cases hkey
      | read k next => exact ⟨hwithin.2 _, hstop.2 value⟩
      | write k _ next => exact ⟨hwithin.2 _, hstop.2 ()⟩
  · intro state key value htaints howns k v hk
    by_cases hkk : k = key
    · subst hkk
      rw [Owns, StateType.taint_insert, Function.update_self] at hk
      exact Option.some.inj hk ▸ htaints k w howns
    · refine htaints k v ?_
      rwa [Owns, StateType.taint_insert, Function.update_of_ne hkk] at hk

/-! ## Nothing is forwarded -/

/-- The transaction is one of the worker's own, and none has been forwarded before. -/
structure Worker.Job.Undisturbed (job : Job) : Prop where
  initial : job.tx.execStatus = .initial
  caller : ∀ e f, job.caller = .depleteMasterQueue e f → f = 0

/-- What the worker has counted as forwarded, before it reports. -/
def Worker.Pc.forwarded : Pc → Option Nat
  | .depleteMasterQueue _ forwarded | .sendReport _ forwarded => some forwarded
  | _ => none

/-- The worker has forwarded nothing, by its control point. -/
structure Worker.Pc.Undisturbed (pc : Pc) : Prop where
  counter : ∀ f, pc.forwarded = some f → f = 0
  job : ∀ job, pc.job = some job → job.Undisturbed

/-- The event tells of nothing that was forwarded. -/
def Event.Undisturbed : Event → Prop
  | .dispatched _ tx result => tx.execStatus = .initial ∧ ∃ success, result = .ok success
  | .reported _ _ forwarded => forwarded = 0
  | _ => True

theorem Worker.Pc.undisturbed_of_none {pc : Pc} (hcounter : pc.forwarded = none)
    (hjob : pc.job = none) : pc.Undisturbed := by
  constructor
  · intro f h
    rw [hcounter] at h
    cases h
  · intro job h
    rw [hjob] at h
    cases h

/-- Nothing has been counted so far. -/
theorem Worker.Pc.undisturbed_of_zero {pc : Pc} (hcounter : pc.forwarded = some 0)
    (hjob : pc.job = none) : pc.Undisturbed := by
  constructor
  · intro f h
    exact (Option.some.inj (hcounter.symm.trans h)).symm
  · intro job h
    rw [hjob] at h
    cases h

theorem Worker.Ready.undisturbed {workers toOthers : List ThreadId} {pc : Pc}
    {inbox : List MessagePayload} (h : Ready workers pc toOthers inbox) : pc.Undisturbed := by
  refine Pc.undisturbed_of_none ?_ h.job
  cases h with
  | draining hpc => rcases hpc with rfl | rfl <;> rfl
  | _ => rfl

/-- Where a dispatch stands does not matter. -/
theorem Worker.Pc.Undisturbed.inside {pc pc' : Pc} {job : Job} (h : pc.Undisturbed)
    (hpc : pc.Executes job) (hpc' : pc'.Executes job) : pc'.Undisturbed := by
  refine ⟨fun f hcounter => ?_, fun job' hjob' => ?_⟩
  · cases hpc' <;> cases hcounter
  · obtain rfl : job = job' := Option.some.inj (hpc'.job_eq.symm.trans hjob')
    exact h.job job hpc.job_eq

/-- A step in which a worker forwards nothing. -/
structure Worker.Move.Undisturbed (wk : Worker) (m : Move) : Prop where
  pc : m.worker.pc.Undisturbed
  fromOthers : m.worker.fromOthers = wk.fromOthers
  forward : m.forward = none
  events : ∀ e ∈ m.events, e.Undisturbed

section
variable {w : ThreadId} {wk wk' : Worker} {state : StateMap} {m : Move} {job : Job}
  {result : Except DispatchError Unit}

theorem Worker.Move.Undisturbed.of_quiet (hpc : wk'.pc.Undisturbed)
    (hqueues : wk'.fromOthers = wk.fromOthers) : (quiet wk' state).Undisturbed wk :=
  ⟨hpc, hqueues, rfl, fun _ he => absurd he List.not_mem_nil⟩

/-- A worker goes on after a dispatch that was not refused. -/
theorem Worker.Move.Undisturbed.of_executed (hjob : job.Undisturbed)
    (hresult : ∃ success, toRuntimeDispatchResult result = .ok success) :
    (executeOrForward w wk state job (toRuntimeDispatchResult result)).Undisturbed wk := by
  obtain ⟨success, hsuccess⟩ := hresult
  rw [hsuccess, executeOrForward_ok]
  refine ⟨?_, rfl, rfl, fun e he => ?_⟩
  · change (job.caller.resume (.executed success)).Undisturbed
    cases hcaller : job.caller with
    | depleteMasterQueue e f =>
      obtain rfl := hjob.caller e f hcaller
      exact Pc.undisturbed_of_zero rfl rfl
    | runAuthor => exact Pc.undisturbed_of_none rfl rfl
  · rw [List.mem_singleton.mp he]
    exact ⟨hjob.initial, success, rfl⟩

/-- **A worker that is refused nothing forwards nothing**, and takes nothing from
others that they have not sent. -/
theorem Worker.Step.undisturbed (hstep : Step w wk state m) (hpc : wk.pc.Undisturbed)
    (hresults : ∀ job result, wk.pc.Results job result →
      ∃ success, toRuntimeDispatchResult result = .ok success)
    (hqueues : ∀ v, wk.fromOthers v = [])
    (htaken : ∀ source tx, .attempted w source tx ∈ m.events → tx.execStatus = .initial) :
    m.Undisturbed wk := by
  have none_of : ∀ {e : Event}, e ∈ ([] : List Event) → e.Undisturbed := fun he =>
    absurd he List.not_mem_nil
  cases hstep with
  | takeAuthoring hpc' hq => exact .of_quiet (Pc.undisturbed_of_zero rfl rfl) rfl
  | takeTransaction hpc' hq =>
    refine ⟨⟨fun f h => ?_, fun job h => ?_⟩, rfl, rfl, fun e he => ?_⟩
    · cases h
    · cases h
      refine ⟨htaken _ _ (List.mem_singleton_self _), fun e f h => ?_⟩
      cases h
      exact hpc.counter _ (by rw [hpc']; rfl)
    · rw [List.mem_singleton.mp he]
      trivial
  | takeForwarded hpc' hq => rw [hqueues] at hq; cases hq
  | distributionDone hpc' hq =>
    obtain rfl := hpc.counter _ (by rw [hpc']; rfl)
    exact .of_quiet (Pc.undisturbed_of_zero rfl rfl) rfl
  | report hpc' =>
    refine ⟨Pc.undisturbed_of_none rfl rfl, rfl, rfl, fun e he => ?_⟩
    rw [List.mem_singleton.mp he]
    exact hpc.counter _ (by rw [hpc']; rfl)
  | access hpc' hkey =>
    rw [hpc'] at hpc
    unfold Worker.access
    split
    · exact ⟨hpc.inside (.executing ..) (.executing ..), rfl, rfl, fun _ => none_of⟩
    · split
      · exact ⟨hpc.inside (.executing ..) (.executing ..), rfl, rfl, fun _ => none_of⟩
      · exact .of_quiet (hpc.inside (.executing ..) (.recheck ..)) rfl
  | accessRecheck hpc' hkey =>
    rw [hpc'] at hpc
    unfold Worker.accessRecheck
    split
    · refine ⟨hpc.inside (.recheck ..) (.executing ..), rfl, rfl, fun e he => ?_⟩
      simp only [answered] at he
      split at he
      · rw [List.mem_singleton.mp he]
        trivial
      · exact none_of he
    · exact .of_quiet (Pc.undisturbed_of_none rfl rfl) rfl
  | beginCommit hpc' =>
    rw [hpc'] at hpc
    exact .of_quiet (hpc.inside (.executing ..) (.committing ..)) rfl
  | commit hpc' hkey hcommit =>
    rw [hpc'] at hpc
    refine ⟨hpc.inside (.committing ..) (.committing ..), rfl, rfl, fun e he => ?_⟩
    rw [List.mem_singleton.mp he]
    trivial
  | @settle job result hres =>
    exact .of_executed (hpc.job job hres.executes.job_eq) (hresults job result hres)
  | validateWrite | validateEnd =>
    refine ⟨Pc.undisturbed_of_none rfl rfl, rfl, rfl, fun e he => ?_⟩
    rw [List.mem_singleton.mp he]
    trivial
  | _ => exact .of_quiet (Pc.undisturbed_of_none rfl rfl) rfl

end

/-- Code that keeps to the worker's keys is not refused in the end. -/
theorem Worker.Pc.Code.results {pool : Pool} {w : ThreadId} {state : StateMap} {pc : Pc} {job : Job}
    {result : Except DispatchError Unit} (h : pc.Code (KeepsTo pool w state))
    (hres : pc.Results job result) : ∃ success, toRuntimeDispatchResult result = .ok success := by
  cases hres with
  | failed job e cache =>
    cases e with
    | tainted owner orphan => exact absurd ⟨orphan, rfl⟩ (h.2 owner)
    | logicError why => exact ⟨_, rfl⟩
  | committed job => exact ⟨_, rfl⟩

/-- No worker has forwarded anything so far. -/
structure System.Unforwarded (exec : Executor) (s : System) : Prop where
  pcs : ∀ w ∈ exec.workers, (s.worker w).pc.Undisturbed
  queues : ∀ w ∈ exec.workers, ∀ v, (s.worker w).fromOthers v = []
  log : ∀ e ∈ s.log, e.Undisturbed

/-- Nothing has been forwarded so far. -/
structure System.Undisturbed (exec : Executor) (pool : Pool) (s : System) : Prop where
  taints : TaintsReserved pool s.state
  codes : ∀ w ∈ exec.workers, (s.worker w).pc.Code (KeepsTo pool w s.state)
  pcs : ∀ w ∈ exec.workers, (s.worker w).pc.Undisturbed
  queues : ∀ w ∈ exec.workers, ∀ v, (s.worker w).fromOthers v = []
  log : ∀ e ∈ s.log, e.Undisturbed

section
variable {exec : Executor} {pool : Pool} {data₀ : Key → Value} {fresh : ThreadId → Prop}
  {s s' s₁ : System}

theorem System.Undisturbed.unforwarded (h : s.Undisturbed exec pool) : s.Unforwarded exec :=
  ⟨h.pcs, h.queues, h.log⟩

/-- What a worker takes is its own. -/
theorem System.Unforwarded.own (h : s.Unforwarded exec) (hauthoring : Authoring exec pool data₀ fresh s)
    {w : ThreadId} (hw : w ∈ exec.workers) {m : Move} {source : Option ThreadId} {tx : Transaction}
    (hstep : Step w (s.worker w) s.state m) (hevent : .attempted w source tx ∈ m.events) :
    tx ∈ pool.share w := by
  refine (hauthoring.started hw hstep hevent).resolve_right ?_
  rintro ⟨-, v, -, hne⟩
  exact hne (h.queues w hw v)

/-- **Workers that are refused nothing forward nothing.** -/
theorem System.Unforwarded.step (h : s.Unforwarded exec)
    (hauthoring : Authoring exec pool data₀ fresh s) (hpool : Assigned exec pool)
    (hresults : ∀ w ∈ exec.workers, ∀ job result, (s.worker w).pc.Results job result →
      ∃ success, toRuntimeDispatchResult result = .ok success)
    (hs : s.Threads exec s') : s'.Unforwarded exec := by
  cases hs with
  | @worker w m hw hstep =>
    have hm := hstep.undisturbed (h.pcs w hw) (hresults w hw) (h.queues w hw) fun source tx hevent =>
      hpool.initial tx (List.mem_filter.mp (h.own hauthoring hw hstep hevent)).1
    refine ⟨fun v hv => ?_, fun v hv u => ?_, fun e he => ?_⟩
    · by_cases hvw : v = w
      · subst hvw
        rw [System.applyMove_pc_self]
        exact hm.pc
      · rw [System.applyMove_pc_other hvw]
        exact h.pcs v hv
    · by_cases hvw : v = w
      · subst hvw
        rw [Authoring.applyMove_worker_self hm.forward, hm.fromOthers]
        exact h.queues v hv u
      · rw [Authoring.applyMove_worker_other hm.forward hvw]
        exact h.queues v hv u
    · exact (List.mem_append.mp he).elim (h.log e) (hm.events e)
  | master hstep =>
    refine ⟨fun v hv => ?_, fun v hv u => ?_, ?_⟩
    · rw [System.masterStep_pc hstep]
      exact h.pcs v hv
    · rw [System.masterStep_fromOthers hstep]
      exact h.queues v hv u
    · rw [(System.masterStep_state hstep hauthoring.master_ne).2]
      exact h.log
  | collect hw hstep =>
    obtain ⟨-, hqueues, payload, hlog⟩ := System.collect_eq hstep
    refine ⟨fun v hv => ?_, fun v hv u => ?_, fun e he => ?_⟩
    · rw [System.collect_pc hstep]
      exact h.pcs v hv
    · rw [hqueues]
      exact h.queues v hv u
    · rw [hlog, List.mem_append, List.mem_singleton] at he
      rcases he with he | rfl
      · exact h.log e he
      · trivial

/-- **Nothing is forwarded in the next step.** -/
theorem System.Undisturbed.step (h : s.Undisturbed exec pool)
    (hauthoring : Authoring exec pool data₀ fresh s) (hpool : Assigned exec pool)
    (hseparate : Separate pool) (hs : s.Threads exec s') : s'.Undisturbed exec pool := by
  obtain ⟨htaints, hcodes⟩ := hauthoring.codes_step hs (fun w _ => hseparate.answers w) h.taints
    h.codes fun w hw m source tx hstep hevent =>
      hseparate.keepsTo (h.unforwarded.own hauthoring hw hstep hevent) s.state
  have hrest := h.unforwarded.step hauthoring hpool
    (fun w hw job result => (h.codes w hw).results) hs
  exact ⟨htaints, hcodes, hrest.pcs, hrest.queues, hrest.log⟩

/-- The master is told of nothing but reports. -/
theorem System.Unforwarded.messages (h : s.Unforwarded exec)
    (hauthoring : Authoring exec pool data₀ fresh s) {c : ThreadId × MessagePayload}
    (hc : c ∈ collectedAll s.log) : c.2.executed? = none ∧ c.2.orphan? = none := by
  have hsent : c.2 ∈ sentBy c.1 s.log := by
    rw [(hauthoring.workers c.1 (hauthoring.senders c hc)).channel, collectedFrom_eq]
    refine List.mem_append_left _ (List.mem_filterMap.mpr ⟨c, hc, ?_⟩)
    rw [if_pos rfl]
  obtain ⟨e, he, hec⟩ := List.mem_filterMap.mp hsent
  have hundisturbed := h.log e he
  cases e with
  | dispatched w tx result =>
    obtain ⟨hinitial, success, rfl⟩ := hundisturbed
    simp [Event.sent, hinitial] at hec
  | reported w executed forwarded =>
    rw [Event.sent] at hec
    split at hec
    · rw [← Option.some.inj hec]
      exact ⟨rfl, rfl⟩
    · cases hec
  | _ => cases hec

theorem filterMap_messages_nil {A : Type} {messages : List (ThreadId × MessagePayload)}
    {f : MessagePayload → Option A} (h : ∀ c ∈ messages, f c.2 = none) :
    messages.filterMap (fun c => f c.2) = [] :=
  List.filterMap_eq_nil_iff.mpr h

/-- The pools are as they were distributed. -/
theorem System.Unforwarded.pools (h : s.Unforwarded exec)
    (hauthoring : Authoring exec pool data₀ fresh s) :
    s.master.orphanPool = [] ∧
      ∀ c, Collected pool (collectedAll s.log) c s.master → s.master.txPool = pool := by
  have hexecuted : ∀ c ∈ collectedAll s.log, c.2.executed? = none := fun c hc =>
    (h.messages hauthoring hc).1
  have horphan : ∀ c ∈ collectedAll s.log, c.2.orphan? = none := fun c hc =>
    (h.messages hauthoring hc).2
  have hcollected : ∀ c, Collected pool (collectedAll s.log) c s.master →
      s.master.orphanPool = [] ∧ s.master.txPool = pool := by
    intro c hcollected
    refine ⟨?_, ?_⟩
    · rw [hcollected.orphanPool, orphaned, List.filterMap_eq_nil_iff]
      intro c hc
      rw [horphan c hc]
      rfl
    · have hrelocated : relocated pool (collectedAll s.log) = [] := by
        rw [relocated, List.filterMap_eq_nil_iff]
        intro c hc
        rw [hexecuted c hc]
        rfl
      have hremaining : remaining pool (collectedAll s.log) = pool := by
        rw [remaining, executedIn, orphansIn, filterMap_messages_nil hexecuted,
          filterMap_messages_nil horphan]
        exact List.filter_eq_self.mpr fun tx _ => by simp
      rw [hcollected.txPool, hrelocated, hremaining, List.append_nil]
  refine ⟨?_, fun c hc => (hcollected c hc).2⟩
  have hmaster := hauthoring.master
  rw [MasterInv] at hmaster
  cases hpc : s.master.pc with
  | concurrentPhase =>
    rw [hpc] at hmaster
    exact hmaster.2.1
  | collect c => exact (hcollected c (hauthoring.collected (.inl hpc))).1
  | check c => exact (hcollected c (hauthoring.collected (.inr hpc))).1
  | _ => rw [hpc] at hmaster; exact hmaster.elim

theorem System.Undisturbed.pools (h : s.Undisturbed exec pool)
    (hauthoring : Authoring exec pool data₀ fresh s) :
    s.master.orphanPool = [] ∧
      ∀ c, Collected pool (collectedAll s.log) c s.master → s.master.txPool = pool :=
  h.unforwarded.pools hauthoring

end

/-! ## The theorem -/

/-- **Conflict-free distribution**: nothing is refused, nothing is forwarded, there are no
orphans, and the block is executed in the order in which it was submitted. -/
theorem conflict_free_distribution {exec : Executor} {s₀ s : System} {txs : List Transaction}
    (h : AuthorCall exec s₀ txs s) (hpanic : ¬ s.DispatchPanicked exec)
    (hworkers : exec.workers ≠ []) (huntainted : ∀ k, s₀.state.taint k = none) (htxs : txs ≠ [])
    (hcalls : ∀ tx ∈ txs, tx.function.AccessComplete)
    (hby : exec.DistributesBy .connectedComponents txs) :
    (∀ w tx result, .dispatched w tx result ∈ s.log → ∃ success, result = .ok success) ∧
    (∀ w executed forwarded, .reported w executed forwarded ∈ s.log → forwarded = 0) ∧
    s.master.orphanPool = [] ∧
    ∀ state block, s.master.pc = .authored state block →
      block.map Transaction.content = txs.map Transaction.content ∧
      (∀ tx ∈ block, tx.tag ≠ .orphan) ∧
      ∃ seqState, SequentialExecutor.applyTransaction txs s₀.state = .ok seqState ∧
        state.data = seqState.data := by
  obtain ⟨pool, hdist, hseparate⟩ := separate_of_connectedComponents hby hworkers htxs
    h.submitted.distinct hcalls
  have hpool := hdist.assigned h.submitted
  have hrun := h.authorRun hdist hpanic
  have hfresh : ∀ w ∈ exec.workers, s₀.Fresh w := by
    intro w _ _ k howns
    rw [Owns, huntainted k] at howns
    cases howns
  have hbegin : (s₀.begin exec (.authorBlock txs)).Undisturbed exec pool := by
    rw [System.begin_eq h.submitted h.txPool]
    refine ⟨fun k v howns => ?_, fun w hw => .of_job (h.ready.workers w hw).job, fun w hw => ?_,
      h.ready.fromOthers, fun _ he => absurd he List.not_mem_nil⟩
    · rw [Owns, huntainted k] at howns
      cases howns
    · exact (h.ready.workers w hw).undisturbed
  have hphase := hrun.phase_of hbegin fun s s' hauthoring hk hs =>
    hk.step hauthoring hpool hseparate hs
  obtain ⟨hlog, horphans⟩ : (∀ e ∈ s.log, e.Undisturbed) ∧ s.master.orphanPool = [] := by
    rcases hphase with ⟨hauthoring, hundisturbed⟩ | ⟨s₁, ⟨hexited, hundisturbed⟩, hclosing⟩
    · exact ⟨hundisturbed.log, (hundisturbed.pools hauthoring).1⟩
    · obtain ⟨tail, hlog, htail, -⟩ := hclosing.progress
      refine ⟨fun e he => ?_, ?_⟩
      · rw [hlog, List.mem_append] at he
        refine he.elim (hundisturbed.log e) fun he => ?_
        have hof := htail e he
        cases e with
        | dispatched w tx result => exact hof.elim
        | reported w executed forwarded => exact hof.elim
        | _ => trivial
      · rw [hclosing.orphanPool, (hundisturbed.pools hexited.authoring).1]
  refine ⟨fun w tx result he => (hlog _ he).2, fun w executed forwarded he => hlog _ he, horphans,
    fun state block hpc => ?_⟩
  rcases hphase with ⟨hauthoring, -⟩ | ⟨s₁, ⟨hexited, hundisturbed⟩, hclosing⟩
  · exact absurd hpc hauthoring.not_authored
  · obtain ⟨tail, hreturned⟩ := hclosing.returned hexited hpc
    obtain ⟨horphans, htxPool⟩ := hundisturbed.pools hexited.authoring
    have hblock : block = pool := by
      rw [hreturned.block, horphans, List.append_nil, htxPool _ hexited.collected]
    have hcontent : block.map Transaction.content = txs.map Transaction.content := by
      rw [hblock, hdist.content]
    refine ⟨hcontent, fun tx htx => ?_, ?_⟩
    · obtain ⟨w, -, htag⟩ := hpool.designated tx (hblock ▸ htx)
      intro h
      cases htag.symm.trans h
    · have hrun := hreturned.run_block hpool hfresh
      rw [map_code_eq hcontent] at hrun
      obtain ⟨seqState, hseq, hdata, -⟩ := SequentialExecutor.applyTransaction_of_ok hrun
      exact ⟨seqState, hseq, hdata.symm⟩

end

section
open Testing

namespace Testing

/-- Two workers, to whom the components are assigned. -/
def byComponents : Executor where
  workers := twoWorkers.workers
  sorted := twoWorkers.sorted
  distribute ids txs :=
    (DistributerKind.connectedComponents.distribute 8 ids txs).getD (.error .unwrap)

/-- Alice pays bob, and dave himself. -/
def unrelated : List Transaction :=
  [signed 7 (.balances (.transfer bob 4)) alice, signed 8 (.balances (.transfer dave 0)) dave]

/-- The workers take turns, and execute one transaction each. -/
def inTurns : List Action :=
  List.replicate 11 Action.master ++
    (List.replicate 10 [Action.worker 1, Action.worker 2]).flatten ++
    [Action.worker 2, .commit 1 (balanceOf.keyFor dave), .commit 2 (balanceOf.keyFor bob),
      .commit 2 (balanceOf.keyFor alice)] ++
    List.replicate 3 (Action.worker 1) ++ List.replicate 3 (Action.worker 2) ++
    [Action.collect 1, .master, .collect 2] ++ List.replicate 4 Action.master

def executedApart : Option System :=
  Transition.exec (System.step byComponents) inTurns
    (spawned.begin byComponents (.authorBlock unrelated))

def separated : System := executedApart.get (by decide +kernel)

theorem separated_call : AuthorCall byComponents spawned unrelated separated where
  ready :=
    { workers := spawned_ready.workers
      fromOthers := spawned_ready.fromOthers
      toMaster := spawned_ready.toMaster
      todo := spawned_ready.todo
      callable := spawned_ready.callable
      taints := spawned_ready.taints }
  txPool := rfl
  orphanPool := rfl
  submitted := ⟨by decide +kernel, by decide, by decide⟩
  run := ⟨inTurns, by decide, (Option.some_get _).symm⟩

theorem byComponents_distributesBy : byComponents.DistributesBy .connectedComponents unrelated := by
  have h : (DistributerKind.connectedComponents.distribute 8 [1, 2] unrelated).isSome = true := by
    decide +kernel
  refine ⟨8, ?_⟩
  change DistributerKind.connectedComponents.distribute 8 [1, 2] unrelated =
    some ((DistributerKind.connectedComponents.distribute 8 [1, 2] unrelated).getD (.error .unwrap))
  obtain ⟨result, hresult⟩ := Option.isSome_iff_exists.mp h
  rw [hresult, Option.getD_some]

theorem separated_returned : ∃ state block, separated.master.pc = .authored state block := by
  have h : (returned separated).isSome = true := by decide +kernel
  unfold returned at h
  split at h
  · rename_i state block hpc
    exact ⟨state, block, hpc⟩
  · cases h

theorem unrelated_accessComplete : ∀ tx ∈ unrelated, tx.function.AccessComplete := by
  intro tx htx
  simp only [unrelated, List.mem_cons, List.not_mem_nil, or_false] at htx
  rcases htx with rfl | rfl
  · trivial
  · trivial

end Testing

theorem conflict_free_distribution_unrelated :
    ∃ state block, separated.master.pc = .authored state block ∧
      block.map Transaction.content = unrelated.map Transaction.content ∧
      ∃ seqState, SequentialExecutor.applyTransaction unrelated spawned.state = .ok seqState ∧
        state.data = seqState.data := by
  obtain ⟨-, -, -, hblock⟩ := conflict_free_distribution separated_call
    (not_panicked_of_sound (by decide +kernel)) (by decide) spawned_untainted (by decide)
    unrelated_accessComplete byComponents_distributesBy
  obtain ⟨state, block, hpc⟩ := separated_returned
  obtain ⟨hcontent, -, hseq⟩ := hblock state block hpc
  exact ⟨state, block, hpc, hcontent, hseq⟩

end
end SonicChain
