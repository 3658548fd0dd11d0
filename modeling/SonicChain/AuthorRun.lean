import SonicChain.KeyRecord
import SonicChain.OrphanPhase

/-! # Runs of `author_block`

A run goes through two phases.  Up to the end of the collection loop it keeps
`Authoring`; it leaves the loop in a state where everything is settled, and from
there it is `Closing`: the master executes the orphans, and nobody else touches
the state.
-/

namespace SonicChain
open Worker StoreProgram

section
variable [Ed25519]

/-! ## Where runs start -/

/-- The worker has just been spawned, or waits for a task, or is about to. -/
inductive Worker.Ready (workers : List ThreadId) : Pc → List ThreadId → List MessagePayload → Prop
  | setup (toOthers : List ThreadId) :
    Ready workers .waitFinalizeSetup toOthers [.finalizeSetup workers]
  | park : Ready workers .park workers []
  | recvTask : Ready workers .recvTask workers []
  /-- Its last task is done, and it has not yet seen that it is. -/
  | draining {pc : Pc} (hpc : pc = .pollMaster ∨ pc = .pollOthers) :
    Ready workers pc workers [.taskDone]

section
variable {workers : List ThreadId} {pc : Pc} {toOthers : List ThreadId}
  {inbox : List MessagePayload} (h : Ready workers pc toOthers inbox)
include h

theorem Worker.Ready.job : pc.job = none := by
  cases h with
  | draining hpc => rcases hpc with rfl | rfl <;> rfl
  | _ => rfl

theorem Worker.Ready.txIds_append (queue : List MessagePayload) :
    txIds (inbox ++ queue) = txIds queue := by
  cases h <;> rfl

/-- A worker that is ready can be told to author. -/
theorem Worker.Ready.stand (pool : Pool) (w : ThreadId) (fresh : Prop) :
    Stand workers pool w fresh pc toOthers
      (inbox ++ .task .authoring :: orders (pool.share w)) [] [] := by
  have hearly : Early pool w fresh [] := ⟨fun _ htx => absurd htx List.not_mem_nil, fun _ => rfl⟩
  cases h with
  | setup => exact .setup toOthers
  | park => exact .park hearly
  | recvTask => exact .recvTask hearly
  | draining hpc => exact .draining hpc hearly

theorem Worker.Ready.draining_of_append {queue : List MessagePayload}
    (hd : Draining (inbox ++ .task .authoring :: queue)) : Draining inbox := by
  obtain ⟨rest, hrest⟩ := hd
  cases h with
  | draining => exact ⟨[], rfl⟩
  | _ => cases hrest

end

/-- Nothing is going on: the master can take a call, the workers are ready for a
task, and the channels are empty but for what ends the last task. -/
structure System.Ready (exec : Executor) (s : System) : Prop where
  workers : ∀ w ∈ exec.workers,
    Worker.Ready exec.workers (s.worker w).pc (s.worker w).toOthers (s.worker w).fromMaster
  fromOthers : ∀ w ∈ exec.workers, ∀ v, (s.worker w).fromOthers v = []
  toMaster : ∀ w ∈ exec.workers, (s.worker w).toMaster = []
  todo : s.master.todo = []
  callable : Callable s.master.pc = true
  taints : ∀ k o, s.state.taint k = some o → o ∈ exec.workers

/-- The worker has left its last task, or nothing will be forwarded to it before it
does: nothing is tainted by it. -/
def System.Fresh (s : System) (w : ThreadId) : Prop :=
  Draining (s.worker w).fromMaster → ∀ k, ¬ ConcurrentRuntime.Owns w s.state k

/-- The distributer gives each transaction to a worker, and changes nothing else. -/
def Distributes (exec : Executor) (txs : List Transaction) (pool : Pool) : Prop :=
  exec.distribute exec.workers txs = .ok pool ∧
    List.Forall₂ (fun tx t => ∃ w ∈ exec.workers, t = { tx with tag := .done w }) txs pool

/-- The transactions can be submitted: they pass the pool's check, and are as they
were created. -/
structure Submitted (txs : List Transaction) : Prop where
  verified : AllVerified txs
  distinct : (txs.map Transaction.id).Nodup
  initial : ∀ tx ∈ txs, tx.execStatus = .initial

/-- **A run of `author_block`**, up to some state: the threads take steps in any
order, and no dispatch panics. -/
structure AuthorRun (exec : Executor) (s₀ : System) (txs : List Transaction) (pool : Pool)
    (s : System) : Prop where
  ready : s₀.Ready exec
  txPool : s₀.master.txPool = []
  orphanPool : s₀.master.orphanPool = []
  submitted : Submitted txs
  distributes : Distributes exec txs pool
  run : ∃ as : List Action, (∀ a ∈ as, a.OfThread) ∧
    Transition.exec (System.step exec) as (s₀.begin exec (.authorBlock txs)) = some s
  noPanic : ¬ s.DispatchPanicked exec

/-- A call of `author_block`, up to some state.  The body of a call may have
panicked. -/
structure AuthorCall (exec : Executor) (s₀ : System) (txs : List Transaction) (s : System) :
    Prop where
  ready : s₀.Ready exec
  txPool : s₀.master.txPool = []
  orphanPool : s₀.master.orphanPool = []
  submitted : Submitted txs
  run : ∃ as : List Action, (∀ a ∈ as, a.OfThread) ∧
    Transition.exec (System.step exec) as (s₀.begin exec (.authorBlock txs)) = some s

theorem AuthorCall.authorRun {exec : Executor} {s₀ s : System} {txs : List Transaction} {pool : Pool}
    (h : AuthorCall exec s₀ txs s) (hdist : Distributes exec txs pool)
    (hpanic : ¬ s.DispatchPanicked exec) : AuthorRun exec s₀ txs pool s :=
  ⟨h.ready, h.txPool, h.orphanPool, h.submitted, hdist, h.run, hpanic⟩

theorem Distributes.ids {exec : Executor} {txs : List Transaction} {pool : Pool}
    (h : Distributes exec txs pool) : pool.map Transaction.id = txs.map Transaction.id := by
  obtain ⟨-, hpool⟩ := h
  induction hpool with
  | nil => rfl
  | cons htx _ ih =>
    obtain ⟨w, -, rfl⟩ := htx
    rw [List.map_cons, List.map_cons, ih]

theorem Distributes.content {exec : Executor} {txs : List Transaction} {pool : Pool}
    (h : Distributes exec txs pool) : pool.map Transaction.content = txs.map Transaction.content := by
  obtain ⟨-, hpool⟩ := h
  induction hpool with
  | nil => rfl
  | cons htx _ ih =>
    obtain ⟨w, -, rfl⟩ := htx
    rw [List.map_cons, List.map_cons, ih]
    rfl

theorem Distributes.of_mem {exec : Executor} {txs : List Transaction} {pool : Pool}
    (h : Distributes exec txs pool) {t : Transaction} (ht : t ∈ pool) :
    ∃ tx ∈ txs, ∃ w ∈ exec.workers, t = { tx with tag := .done w } := by
  obtain ⟨-, hpool⟩ := h
  induction hpool with
  | nil => cases ht
  | cons htx _ ih =>
    rcases List.mem_cons.mp ht with rfl | ht
    · exact ⟨_, List.mem_cons_self .., htx⟩
    · obtain ⟨tx, hmem, hw⟩ := ih ht
      exact ⟨tx, List.mem_cons_of_mem _ hmem, hw⟩

theorem Distributes.assigned {exec : Executor} {txs : List Transaction} {pool : Pool}
    (h : Distributes exec txs pool) (htxs : Submitted txs) : Assigned exec pool where
  ids := by rw [h.ids]; exact htxs.distinct
  initial t ht := by
    obtain ⟨tx, htx, w, -, rfl⟩ := h.of_mem ht
    exact htxs.initial tx htx
  designated t ht := by
    obtain ⟨tx, -, w, hw, rfl⟩ := h.of_mem ht
    exact ⟨w, hw, rfl⟩
  verified t ht := by
    obtain ⟨tx, htx, w, -, rfl⟩ := h.of_mem ht
    exact htxs.verified tx htx

/-! ## The first state -/

section
variable {exec : Executor} {s₀ : System} {txs : List Transaction} {pool : Pool}
  (hready : s₀.Ready exec) (htxs : Submitted txs) (htxPool : s₀.master.txPool = [])
include htxs htxPool

theorem System.begin_eq : s₀.begin exec (.authorBlock txs) =
    { s₀ with
      master := { s₀.master with
        txPool := txs
        todo := Master.unparkAll exec.workers ++ Master.unparkAll exec.workers ++
          Master.broadcast exec.workers (.task .authoring)
        pc := .concurrentPhase }
      log := [] } := by
  rw [System.begin, htxPool, Pool.pushBatch_of_verified htxs.verified]
  rfl

/-- What each worker finds in its queue in the end. -/
theorem System.pending_eq {w : ThreadId} (hw : w ∈ exec.workers) :
    (s₀.begin exec (.authorBlock txs)).master.pending pool w =
      .task .authoring :: orders (pool.share w) := by
  rw [begin_eq htxs htxPool]
  simp [Master.pending, List.filterMap_append, unparkAll_to, broadcast_to exec.nodup hw]

include hready in
/-- **A call of `author_block` on an executor that is ready begins a run.** -/
theorem Authoring.begin (horphanPool : s₀.master.orphanPool = []) (hdist : Distributes exec txs pool) :
    Authoring exec pool s₀.state.data s₀.Fresh (s₀.begin exec (.authorBlock txs)) := by
  have hpool := hdist.assigned htxs
  have hpending : ∀ w ∈ exec.workers, (s₀.begin exec (.authorBlock txs)).master.pending pool w =
      .task .authoring :: orders (pool.share w) := fun w hw => System.pending_eq htxs htxPool hw
  have heq : s₀.begin exec (.authorBlock txs) = _ := System.begin_eq htxs htxPool
  have hworker : ∀ w, (s₀.begin exec (.authorBlock txs)).worker w = s₀.worker w := by
    intro w; rw [heq]
  have hlog : (s₀.begin exec (.authorBlock txs)).log = [] := by rw [heq]
  have hstate : (s₀.begin exec (.authorBlock txs)).state = s₀.state := by rw [heq]
  -- All transactions are among the orders that are to come.
  have hheld : ∀ p : Place, p.worker ∈ exec.workers →
      (s₀.begin exec (.authorBlock txs)).held pool p =
        if p.slot = .pending then (pool.share p.worker).map Transaction.id else [] := by
    intro p hp
    rw [System.held, hworker, hlog, hpending _ hp]
    cases p.slot with
    | pending =>
      exact ((hready.workers _ hp).txIds_append _).trans (txIds_orders (pool.share p.worker))
    | executing => simp [Slot.held, (hready.workers _ hp).job]
    | forwarded sender => simp [Slot.held, hready.fromOthers _ hp]
    | _ => rfl
  refine ⟨fun w hw => ⟨?_, fun v payload hmem => ?_, fun hfresh hdrain => ?_, ?_, ?_, ?_⟩,
    ⟨⟨fun p hp => ?_, fun p q tid hp hq hpt hqt => ?_, fun tid => ⟨?_, fun htid => ?_⟩⟩,
      fun p hp tid htid => ?_⟩, ⟨?_, ?_⟩, ?_, ?_, ?_⟩
  · rw [hpending w hw, hworker, hlog]
    exact (hready.workers w hw).stand pool w _
  · rw [hworker, hready.fromOthers w hw] at hmem
    cases hmem
  · rw [hworker, hpending w hw] at hdrain
    rw [hworker, hstate]
    exact ⟨hready.fromOthers w hw, hfresh ((hready.workers w hw).draining_of_append hdrain)⟩
  · rw [hworker, hlog, hready.toMaster w hw]
    rfl
  · rw [hlog]
    rfl
  · rw [hworker, hlog, hstate]
    exact ⟨s₀.state.data, rfl, fun _ h => absurd h List.not_mem_nil,
      .outside (hready.workers w hw).job (fun _ _ => rfl) fun _ => Iff.rfl⟩
  · rw [hheld p hp]
    split
    · exact (List.filter_sublist.map _).nodup hpool.ids
    · exact List.nodup_nil
  · rw [hheld p hp] at hpt
    rw [hheld q hq] at hqt
    split at hpt
    · rename_i hpslot
      split at hqt
      · rename_i hqslot
        obtain ⟨t, ht, rfl⟩ := List.mem_map.mp hpt
        obtain ⟨t', ht', hid⟩ := List.mem_map.mp hqt
        obtain ⟨hmem, htag⟩ := List.mem_filter.mp ht
        obtain ⟨hmem', htag'⟩ := List.mem_filter.mp ht'
        have hsame : t' = t := List.inj_on_of_nodup_map hpool.ids hmem' hmem hid
        subst hsame
        have hworkers := (of_decide_eq_true htag).symm.trans (of_decide_eq_true htag')
        obtain ⟨v, slot⟩ := p
        obtain ⟨v', slot'⟩ := q
        cases hworkers
        dsimp only at hpslot hqslot
        rw [hpslot, hqslot]
      · cases hqt
    · cases hpt
  · rintro ⟨p, hp, htid⟩
    rw [hheld p hp] at htid
    split at htid
    · exact (List.filter_sublist.map _).subset htid
    · cases htid
  · obtain ⟨t, ht, rfl⟩ := List.mem_map.mp htid
    obtain ⟨w, hw, htag⟩ := hpool.designated t ht
    refine ⟨⟨w, .pending⟩, hw, ?_⟩
    rw [hheld _ hw]
    exact List.mem_map_of_mem (List.mem_filter.mpr ⟨ht, decide_eq_true htag⟩)
  · rw [hlog]
    exact Nat.zero_le _
  · rw [hstate]; exact hready.taints
  · rw [hstate]; exact fun _ _ => rfl
  · intro effect heffect
    rw [heq] at heffect
    simp only [Master.unparkAll, Master.broadcast, List.mem_append, List.mem_map] at heffect
    rcases heffect with (⟨w, -, rfl⟩ | ⟨w, -, rfl⟩) | ⟨w, -, rfl⟩
    · exact .inl ⟨w, rfl⟩
    · exact .inl ⟨w, rfl⟩
    · exact .inr ⟨w, _, rfl⟩
  · rw [hlog]; exact fun _ h => absurd h List.not_mem_nil
  · rw [hlog, heq]
    exact ⟨hdist.1, horphanPool, rfl⟩

end

/-! ## Steps -/

/-- The master leaves the collection loop. -/
def System.leaveLoop (exec : Executor) (s : System) : System :=
  { s with master := { s.master with
      todo := Master.broadcast exec.workers .taskDone
      pc := .executeOrphanPool .author s.master.orphanPool } }

/-- Where the collection loop is left. -/
structure Exited (exec : Executor) (pool : Pool) (data₀ : Key → Value) (fresh : ThreadId → Prop)
    (s : System) : Prop where
  authoring : Authoring exec pool data₀ fresh s
  resolved : Resolved exec pool fresh s
  collected : Collected pool (collectedAll s.log) (counted pool (collectedAll s.log)) s.master

section
variable {exec : Executor} {pool : Pool} {data₀ : Key → Value} {fresh : ThreadId → Prop}
  {s s' : System}

theorem Authoring.collected (h : Authoring exec pool data₀ fresh s) {c : Master.Counters}
    (hpc : s.master.pc = .collect c ∨ s.master.pc = .check c) :
    Collected pool (collectedAll s.log) c s.master := by
  have hmaster := h.master
  rcases hpc with hpc | hpc <;> rwa [MasterInv, hpc] at hmaster

/-- **Every step keeps the protocol of authoring**, until the master leaves the
collection loop, unless the body of a call panics. -/
theorem Authoring.step (h : Authoring exec pool data₀ fresh s) (hpool : Assigned exec pool)
    (hs : s.Threads exec s') :
    Authoring exec pool data₀ fresh s' ∨ s'.DispatchPanicked exec ∨
      Exited exec pool data₀ fresh s ∧ s' = s.leaveLoop exec := by
  cases hs with
  | @worker w m hw hstep =>
    rcases h.worker_step hpool hw hstep with h' | ⟨why, hpc⟩
    · exact .inl h'
    · exact .inr (.inl (.inl ⟨w, hw, why, by rw [System.applyMove_pc_self, hpc]⟩))
  | collect hw hstep => exact .inl (h.collect hpool hw hstep)
  | master hstep =>
    cases htodo : s.master.todo with
    | cons effect todo =>
      rw [System.masterStep, htodo] at hstep
      exact .inl (Option.some.inj hstep ▸ h.perform htodo)
    | nil =>
      rw [System.masterStep, htodo] at hstep
      have hmaster := h.master
      rw [MasterInv] at hmaster
      cases hpc : s.master.pc with
      | concurrentPhase =>
        obtain ⟨hdistribute, hnext⟩ := h.distribute hpool htodo hpc
        simp only [hpc, hdistribute] at hstep
        exact .inl (Option.some.inj hstep ▸ hnext)
      | collect c =>
        simp only [hpc] at hstep
        exact .inl (Option.some.inj hstep ▸ h.loop (.inl hpc) (.inr rfl))
      | check c =>
        simp only [hpc] at hstep
        cases hexit : Master.exitCondition exec.workers.length c s.master.orphanPool with
        | false =>
          rw [hexit] at hstep
          exact .inl (Option.some.inj hstep ▸ h.loop (.inr hpc) (.inl rfl))
        | true =>
          have hres := (h.exit_iff hpool (.inr hpc)).mp hexit
          have hcollected := h.collected (.inr hpc)
          rw [hexit, if_pos rfl, if_pos (h.total_eq hpool (.inr hpc) hres)] at hstep
          refine .inr (.inr ⟨⟨h, hres, ?_⟩, (Option.some.inj hstep).symm⟩)
          rwa [← hcollected.counters]
      | _ => rw [hpc] at hmaster; exact hmaster.elim

/-- A worker that has settled everything waits for the task to be done. -/
theorem Exited.idle (h : Exited exec pool data₀ fresh s) {w : ThreadId} (hw : w ∈ exec.workers) :
    Idle exec (s.worker w) [.taskDone] := by
  have hinv := h.authoring.workers w hw
  have hreported := h.resolved.reported w hw
  have hinbox := (List.append_eq_nil_iff.mp hreported.2.1).1
  have hjob : (s.worker w).pc.job = none := by
    have hnone := h.resolved.settled w hw .executing (by decide) (by decide)
    rw [System.held, Slot.held] at hnone
    cases hjob : (s.worker w).pc.job with
    | none => rfl
    | some job => rw [hjob] at hnone; cases hnone
  refine ⟨?_, fun v => ?_, h.resolved.received w hw⟩
  · rw [hinbox, hreported.1]
    rcases hinv.stand.polls_of_reported hreported hjob with hpc | hpc <;> rw [hpc]
    · exact .pollMaster
    · exact .pollOthers
  · refine List.eq_nil_iff_forall_not_mem.mpr fun payload hp => ?_
    have hnone : txIds ((s.worker w).fromOthers v) = [] :=
      h.resolved.settled w hw (.forwarded v) (by simp) (by simp)
    obtain ⟨tx, -, -, rfl⟩ := hinv.queues v payload hp
    have hmem : tx.id ∈ txIds ((s.worker w).fromOthers v) :=
      List.mem_map_of_mem (List.mem_filterMap.mpr ⟨_, hp, rfl⟩)
    rw [hnone] at hmem
    cases hmem

/-- The orphans are tagged as such. -/
theorem Exited.orphans (h : Exited exec pool data₀ fresh s) :
    ∀ tx ∈ s.master.orphanPool, tx.tag = .orphan := by
  intro tx htx
  rw [h.collected.orphanPool] at htx
  obtain ⟨c, -, hc⟩ := List.mem_filterMap.mp htx
  obtain ⟨tid, -, hc⟩ := Option.bind_eq_some_iff.mp hc
  obtain ⟨t, -, rfl⟩ := Option.map_eq_some_iff.mp hc
  rfl

/-- **The orphan phase begins.** -/
theorem Closing.begin (h : Exited exec pool data₀ fresh s) :
    Closing exec .author s (s.leaveLoop exec) := by
  refine ⟨fun w hw => ?_, fun effect heffect => ?_, rfl, rfl, [], (List.append_nil _).symm,
    fun _ h => absurd h List.not_mem_nil, .inl ⟨rfl, rfl, rfl, fun _ => Iff.rfl⟩⟩
  · have hsend : (Master.broadcast exec.workers .taskDone).filterMap (Master.Effect.messageTo w) =
        [.taskDone] := broadcast_to exec.nodup hw .taskDone
    exact hsend.symm ▸ h.idle hw
  · obtain ⟨w, -, rfl⟩ := List.mem_map.mp heffect
    exact ⟨w, _, rfl⟩

end

/-- The phases of a run of `author_block`, with what each step keeps as long as the
workers execute. -/
theorem AuthorRun.phase_of {exec : Executor} {s₀ s : System} {txs : List Transaction} {pool : Pool}
    (h : AuthorRun exec s₀ txs pool s) {K : System → Prop}
    (hbegin : K (s₀.begin exec (.authorBlock txs)))
    (hstep : ∀ s s', Authoring exec pool s₀.state.data s₀.Fresh s → K s → s.Threads exec s' → K s') :
    (Authoring exec pool s₀.state.data s₀.Fresh s ∧ K s) ∨
      ∃ s₁, (Exited exec pool s₀.state.data s₀.Fresh s₁ ∧ K s₁) ∧ Closing exec .author s₁ s := by
  have hpool := h.distributes.assigned h.submitted
  obtain ⟨as, has, hexec⟩ := h.run
  have hauthoring := Authoring.begin h.ready h.submitted h.txPool h.orphanPool h.distributes
  refine (Transition.exec_invariant_unless
    (I := fun s => (Authoring exec pool s₀.state.data s₀.Fresh s ∧ K s) ∨
      ∃ s₁, (Exited exec pool s₀.state.data s₀.Fresh s₁ ∧ K s₁) ∧ Closing exec .author s₁ s)
    (B := System.DispatchPanicked exec) (fun s a s' ha hi hs => ?_) (fun s a s' ha hb hs => ?_) has
    hexec (.inl ⟨hauthoring, hbegin⟩)).resolve_right h.noPanic
  · have hthreads := System.threads_of_step ha hs
    rcases hi with ⟨hi, hk⟩ | ⟨s₁, ⟨hexited, hk⟩, hi⟩
    · rcases hi.step hpool hthreads with hi' | hpanic | ⟨hexited, rfl⟩
      · exact .inl (.inl ⟨hi', hstep s s' hi hk hthreads⟩)
      · exact .inr hpanic
      · exact .inl (.inr ⟨s, ⟨hexited, hk⟩, .begin hexited⟩)
    · exact (hi.step hexited.orphans hthreads).imp (fun hi' => .inr ⟨s₁, ⟨hexited, hk⟩, hi'⟩) .inr
  · exact hb.step (System.threads_of_step ha hs)

/-- **The phases of a run of `author_block`.** -/
theorem AuthorRun.phase {exec : Executor} {s₀ s : System} {txs : List Transaction} {pool : Pool}
    (h : AuthorRun exec s₀ txs pool s) :
    Authoring exec pool s₀.state.data s₀.Fresh s ∨
      ∃ s₁, Exited exec pool s₀.state.data s₀.Fresh s₁ ∧ Closing exec .author s₁ s :=
  (h.phase_of (K := fun _ => True) trivial fun _ _ _ _ _ => trivial).imp (·.1)
    fun ⟨s₁, ⟨hexited, _⟩, hclosing⟩ => ⟨s₁, hexited, hclosing⟩

/-! ## When a call has returned -/

theorem Retired.ready {workers toOthers : List ThreadId} {pc : Pc} {inbox : List MessagePayload}
    (h : Retired workers pc toOthers inbox) : Ready workers pc toOthers inbox := by
  cases h with
  | pollMaster => exact .draining (.inl rfl)
  | pollOthers => exact .draining (.inr rfl)
  | park => exact .park
  | recvTask => exact .recvTask

/-- The workers are ready again. -/
theorem Closing.ready {exec : Executor} {return_to : Master.Return} {s₁ s : System}
    (h : Closing exec return_to s₁ s) (htodo : s.master.todo = [])
    (hcallable : System.Callable s.master.pc = true)
    (htaints : ∀ k o, s.state.taint k = some o → o ∈ exec.workers) : s.Ready exec := by
  refine ⟨fun w hw => ?_, fun w hw => (h.workers w hw).fromOthers,
    fun w hw => (h.workers w hw).toMaster, htodo, hcallable, htaints⟩
  have hretired := (h.workers w hw).retired
  rw [htodo, List.filterMap_nil, List.append_nil] at hretired
  exact hretired.ready

theorem Closing.ready_of_callable {exec : Executor} {return_to : Master.Return} {s₁ s : System}
    (h : Closing exec return_to s₁ s) (hcallable : System.Callable s.master.pc = true)
    (htaints : ∀ k o, s.state.taint k = some o → o ∈ exec.workers) : s.Ready exec := by
  obtain ⟨tail, -, -, hreplays | hdone⟩ := h.progress
  · exfalso
    generalize s.master.pc = pc at hcallable hreplays
    cases pc <;> first | exact hreplays | cases hcallable
  · exact h.ready hdone.todo hcallable htaints

/-- When `author_block` has returned, the next call can be made. -/
theorem AuthorRun.ready_again {exec : Executor} {s₀ s : System} {txs : List Transaction} {pool : Pool}
    (h : AuthorRun exec s₀ txs pool s) (hcallable : System.Callable s.master.pc = true) :
    s.Ready exec ∧ ∀ tx ∈ s.master.orphanPool, tx.tag = .orphan := by
  obtain ⟨as, has, hexec⟩ := h.run
  obtain ⟨-, htainted⟩ := System.recorded_of_run has hexec
  rw [System.begin_eq h.submitted h.txPool] at htainted
  rcases h.phase with hauthoring | ⟨s₁, hexited, hclosing⟩
  · exfalso
    have hmaster := hauthoring.master
    rw [MasterInv] at hmaster
    generalize s.master.pc = pc at hcallable hmaster
    cases pc <;> first | exact hmaster | cases hcallable
  · refine ⟨hclosing.ready_of_callable hcallable fun k o hk =>
      (htainted k o hk).elim (h.ready.taints k o) id, ?_⟩
    rw [hclosing.orphanPool]
    exact hexited.orphans

end

/-! ## A concrete run -/

namespace Testing

/-- A transaction that its origin has signed. -/
def signed (id : TransactionId) (call : OuterCall) (origin : AccountId) : Transaction :=
  .new id call origin (origin.bytes, call.encode.toOption.getD [])

/-- Alice pays bob, and bob pays some of it back. -/
def backAndForth : List Transaction :=
  [signed 7 (.balances (.transfer bob 4)) alice, signed 8 (.balances (.transfer alice 1)) bob]

/-- The transactions go to the workers in turn. -/
def inTurn : Distributer := fun workers pool =>
  .ok (pool.mapIdx fun i tx => { tx with tag := .done (workers.getD (i % workers.length) 0) })

def twoWorkers : Executor := ⟨[1, 2], by decide, inTurn⟩

/-- Alice has an entry, bob has none, and the workers have just been spawned. -/
def spawned : System where
  state := (∅ : StateMap).insert (balanceOf.keyFor alice) ⟨leBytes 16 10 ++ leBytes 16 0, none⟩
  worker _ := ⟨.waitFinalizeSetup, false, [], [.finalizeSetup [1, 2]], fun _ => [], []⟩
  master := ⟨.idle, [], [], []⟩
  log := []

/-- Worker 1 executes its transaction, worker 2 forwards its own to worker 1. -/
def schedule : List Action :=
  let commit : List Action :=
    [Action.commit 1 (balanceOf.keyFor alice), .commit 1 (balanceOf.keyFor bob)]
  List.replicate 11 Action.master ++ List.replicate 11 (Action.worker 1) ++ commit ++
    List.replicate 3 (Action.worker 1) ++ [Action.collect 1, .master] ++
    List.replicate 8 (Action.worker 2) ++ [Action.collect 2, .master, .worker 1, .receive 1 2] ++
    List.replicate 5 (Action.worker 1) ++ commit ++ [Action.worker 1, .collect 1] ++ List.replicate 4 Action.master

def afterwards : Option System :=
  Transition.exec (System.step twoWorkers) schedule
    (spawned.begin twoWorkers (.authorBlock backAndForth))

def settled : System := afterwards.get (by decide +kernel)

def backAndForthPool : Pool :=
  backAndForth.mapIdx fun i tx => { tx with tag := .done (twoWorkers.workers.getD (i % 2) 0) }

/-- No thread has panicked in the body of a call. -/
def sound (exec : Executor) (s : System) : Bool :=
  exec.workers.all (fun w =>
    match (s.worker w).pc with
    | .dispatchPanicked _ => false
    | _ => true) &&
  match s.master.pc with
  | .dispatchPanicked _ => false
  | _ => true

theorem not_panicked_of_sound {exec : Executor} {s : System} (h : sound exec s = true) :
    ¬ s.DispatchPanicked exec := by
  rw [sound, Bool.and_eq_true, List.all_eq_true] at h
  rintro (⟨w, hw, why, hpc⟩ | ⟨-, why, hpc⟩)
  · have := h.1 w hw
    rw [hpc] at this
    cases this
  · have := h.2
    rw [hpc] at this
    cases this

theorem spawned_untainted (k : Key) : spawned.state.taint k = none := by
  rw [spawned, StateType.taint_insert]
  by_cases hk : k = balanceOf.keyFor alice
  · subst hk; rw [Function.update_self]
  · rw [Function.update_of_ne hk]; rfl

theorem spawned_ready : spawned.Ready twoWorkers where
  workers w _ := .setup []
  fromOthers _ _ _ := rfl
  toMaster _ _ := rfl
  todo := rfl
  callable := rfl
  taints k o h := by rw [spawned_untainted] at h; cases h

theorem spawned_fresh (w : ThreadId) : spawned.Fresh w := by
  rintro ⟨rest, hrest⟩
  cases hrest

theorem settled_run : AuthorRun twoWorkers spawned backAndForth backAndForthPool settled where
  ready := spawned_ready
  txPool := rfl
  orphanPool := rfl
  submitted := ⟨by decide +kernel, by decide, by decide⟩
  distributes := ⟨rfl, .cons ⟨1, by decide, rfl⟩ (.cons ⟨2, by decide, rfl⟩ .nil)⟩
  run := ⟨schedule, by decide, (Option.some_get _).symm⟩
  noPanic := not_panicked_of_sound (by decide +kernel)

/-- What a call that has returned has returned. -/
def returned (s : System) : Option (StateMap × List Transaction) :=
  match s.master.pc with
  | .authored state block => some (state, block)
  | _ => none

theorem pc_of_returned {s : System} {r : StateMap × List Transaction} (h : returned s = some r) :
    s.master.pc = .authored r.1 r.2 := by
  unfold returned at h
  split at h
  · rename_i state block hpc
    rw [hpc, ← Option.some.inj h]
  · cases h

theorem settled_returned : ∃ state block, settled.master.pc = .authored state block := by
  have h : (returned settled).isSome = true := by decide +kernel
  obtain ⟨r, hr⟩ := Option.isSome_iff_exists.mp h
  exact ⟨r.1, r.2, pc_of_returned hr⟩

example : (returned settled).map (fun r => r.2.map fun tx => (tx.id, tx.tag)) =
    some [(7, .done 1), (8, .done 1)] := by
  decide +kernel

end Testing

end SonicChain
