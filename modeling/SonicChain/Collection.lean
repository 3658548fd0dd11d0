import SonicChain.AuthoringWorker

/-! # The collection phase

The master's steps keep the protocol of authoring (`Authoring.master_step`,
`Authoring.collect`), up to the exit of the collection loop.  The panics of the loop
are out of reach: a message about a transaction is the only one, so the
transaction is still in the pool.

The exit condition is decided by counting (`Authoring.exit_iff`): it holds exactly
when all workers have reported, every transaction has been settled, and no message
is under way.
-/

namespace SonicChain
open Worker

variable [Ed25519]

/-! ## Orders under way -/

theorem threadsAndTxs_eq {workers : List ThreadId} {pool : Pool}
    (h : ∀ tx ∈ pool, ∃ w ∈ workers, tx.tag = .done w) :
    ∃ assigned, Master.threadsAndTxs pool = .ok assigned ∧
      assigned.map Prod.snd = pool ∧ ∀ a ∈ assigned, a.2.tag = .done a.1 ∧ a.1 ∈ workers := by
  induction pool with
  | nil => exact ⟨[], rfl, rfl, fun _ h => absurd h List.not_mem_nil⟩
  | cons tx pool ih =>
    obtain ⟨w, hw, htag⟩ := h tx (List.mem_cons_self ..)
    obtain ⟨assigned, hassigned, hsnd, hmem⟩ := ih fun t ht => h t (List.mem_cons_of_mem _ ht)
    refine ⟨(w, tx) :: assigned, ?_, by simp [hsnd], fun a ha => ?_⟩
    · simp [Master.threadsAndTxs, htag, hassigned]
    · rcases List.mem_cons.mp ha with rfl | ha
      · exact ⟨htag, hw⟩
      · exact hmem a ha

/-- A broadcast sends one message to each worker. -/
theorem broadcast_to {workers : List ThreadId} (hnodup : workers.Nodup) {w : ThreadId}
    (hw : w ∈ workers) (payload : MessagePayload) :
    (Master.broadcast workers payload).filterMap (Master.Effect.messageTo w) = [payload] := by
  induction workers with
  | nil => cases hw
  | cons v workers ih =>
    obtain ⟨hv, hnodup⟩ := List.nodup_cons.mp hnodup
    by_cases hvw : v = w
    · subst hvw
      have hrest : (Master.broadcast workers payload).filterMap (Master.Effect.messageTo v) = [] := by
        refine List.filterMap_eq_nil_iff.mpr fun effect he => ?_
        obtain ⟨u, hu, rfl⟩ := List.mem_map.mp he
        have hne : u ≠ v := fun he => hv (he ▸ hu)
        simp [Master.Effect.messageTo, hne]
      rw [Master.broadcast, List.map_cons, List.filterMap_cons_some (b := payload)
        (by simp [Master.Effect.messageTo])]
      exact congrArg _ hrest
    · have hw : w ∈ workers := (List.mem_cons.mp hw).resolve_left (Ne.symm hvw)
      rw [Master.broadcast, List.map_cons, List.filterMap_cons_none
        (by simp [Master.Effect.messageTo, hvw])]
      exact ih hnodup hw

theorem unparkAll_to (workers : List ThreadId) (w : ThreadId) :
    (Master.unparkAll workers).filterMap (Master.Effect.messageTo w) = [] := by
  refine List.filterMap_eq_nil_iff.mpr fun effect he => ?_
  obtain ⟨u, -, rfl⟩ := List.mem_map.mp he
  rfl

theorem Executor.nodup (exec : Executor) : exec.workers.Nodup :=
  exec.sorted.imp fun {a b} hab => by rintro rfl; exact UInt64.lt_irrefl _ hab

/-- The sends of `concurrent_phase` are the orders of each worker. -/
theorem distributeEffects_to {exec : Executor} {pool : Pool} (hpool : Assigned exec pool)
    {w : ThreadId} (hw : w ∈ exec.workers) :
    (Master.distributeEffects exec.workers pool).filterMap (Master.Effect.messageTo w) =
      orders (pool.share w) := by
  obtain ⟨assigned, hassigned, rfl, hmem⟩ := threadsAndTxs_eq hpool.designated
  have hsends : ∀ l : List (ThreadId × Transaction),
      (∀ a ∈ l, a.2.tag = .done a.1 ∧ a.1 ∈ exec.workers) →
      (l.map fun a => Master.sendTo exec.workers "Worker thread must exist; qed." a.1 a.2).filterMap
          (Master.Effect.messageTo w) =
        (Pool.share (l.map Prod.snd) w).map .transaction := by
    intro l hl
    induction l with
    | nil => rfl
    | cons a l ih =>
      obtain ⟨htag, ha⟩ := hl a (List.mem_cons_self ..)
      have ih := ih fun b hb => hl b (List.mem_cons_of_mem _ hb)
      by_cases haw : a.1 = w
      · rw [List.map_cons, List.filterMap_cons_some (b := .transaction a.2)
          (by simp [Master.sendTo, Master.Effect.messageTo, haw, hw]), ih, Pool.share,
          Pool.share, List.map_cons, List.filter_cons_of_pos (by simp [htag, haw]), List.map_cons]
      · rw [List.map_cons, List.filterMap_cons_none
          (by simp [Master.sendTo, Master.Effect.messageTo, ha, haw]), ih, Pool.share,
          Pool.share, List.map_cons, List.filter_cons_of_neg (by simp [htag, haw])]
  rw [Master.distributeEffects, hassigned]
  simp only [List.filterMap_append]
  rw [hsends assigned hmem, broadcast_to exec.nodup hw]
  rfl

theorem distributeEffects_sends {workers : List ThreadId} {pool : Pool}
    (hpool : ∀ tx ∈ pool, ∃ w ∈ workers, tx.tag = .done w) :
    ∀ effect ∈ Master.distributeEffects workers pool,
      (∃ w, effect = .unpark w) ∨ ∃ w payload, effect = .send w payload := by
  obtain ⟨assigned, hassigned, rfl, hmem⟩ := threadsAndTxs_eq hpool
  intro effect he
  rw [Master.distributeEffects, hassigned] at he
  rcases List.mem_append.mp he with he | he
  · obtain ⟨a, ha, rfl⟩ := List.mem_map.mp he
    exact .inr ⟨a.1, .transaction a.2, by simp [Master.sendTo, (hmem a ha).2]⟩
  · obtain ⟨w, -, rfl⟩ := List.mem_map.mp he
    exact .inr ⟨w, _, rfl⟩

namespace Authoring
variable {exec : Executor} {pool : Pool} {data₀ : Key → Value} {fresh : ThreadId → Prop}
  {w : ThreadId} {s s' : System}

/-- Orders may be at the master or in the channel. -/
theorem of_orders (h : Authoring exec pool data₀ fresh s) (hstate : s'.state = s.state)
    (hlog : s'.log = s.log)
    (hworker : ∀ w, (s'.worker w).pc = (s.worker w).pc ∧
      (s'.worker w).toOthers = (s.worker w).toOthers ∧
      (s'.worker w).fromOthers = (s.worker w).fromOthers ∧
      (s'.worker w).toMaster = (s.worker w).toMaster)
    (hinbox : ∀ w ∈ exec.workers, (s'.worker w).fromMaster ++ s'.master.pending pool w =
      (s.worker w).fromMaster ++ s.master.pending pool w)
    (htodo : ∀ effect ∈ s'.master.todo,
      (∃ w, effect = .unpark w) ∨ ∃ w payload, effect = .send w payload)
    (hmaster : MasterInv exec pool (collectedAll s.log) s'.master) :
    Authoring exec pool data₀ fresh s' := by
  refine ⟨fun w hw => ?_, ⟨h.tracked.placed.congr fun p hp => ?_, fun p hp tid htid => ?_⟩, ?_,
    htodo, ?_, ?_⟩
  · obtain ⟨hpc, hto, hfrom, hout⟩ := hworker w
    have hinv := h.workers w hw
    rw [hstate, hlog]
    refine ⟨?_, ?_, ?_, ?_, hinv.executed, ?_⟩
    · rw [hpc, hto, hinbox w hw]; exact hinv.stand
    · rw [hfrom]; exact hinv.queues
    · rw [hfrom, hinbox w hw]; exact hinv.undisturbed
    · rw [hout]; exact hinv.channel
    · rw [hpc]; exact hinv.faithful
  · obtain ⟨hpc, -, hfrom, -⟩ := hworker p.worker
    rw [System.held, System.held, hlog]
    cases p.slot with
    | pending => rw [Slot.held, Slot.held, hinbox _ hp]
    | executing => rw [Slot.held, Slot.held, hpc]
    | forwarded sender => rw [Slot.held, Slot.held, hfrom]
    | _ => rfl
  · obtain ⟨hpc, -, hfrom, -⟩ := hworker p.worker
    have hsame : s'.held pool p = s.held pool p := by
      rw [System.held, System.held, hlog]
      cases p.slot with
      | pending => rw [Slot.held, Slot.held, hinbox _ hp]
      | executing => rw [Slot.held, Slot.held, hpc]
      | forwarded sender => rw [Slot.held, Slot.held, hfrom]
      | _ => rfl
    rw [hsame] at htid
    rw [hlog]
    refine (h.tracked.attempts p hp tid htid).trans (Nat.le_of_eq ?_)
    cases p.slot with
    | executing => rw [Slot.attempts, Slot.attempts, hpc]
    | _ => rfl
  · rw [hstate]; exact h.untouched
  · rw [hlog]; exact h.record
  · rw [hlog]; exact hmaster

/-- The master makes a send or a wake-up that it is due to make. -/
theorem perform (h : Authoring exec pool data₀ fresh s) {effect : Master.Effect}
    {todo : List Master.Effect} (htodo : s.master.todo = effect :: todo) :
    Authoring exec pool data₀ fresh (s.perform effect todo) := by
  have hsends := h.todo
  rw [htodo] at hsends
  have hrest := fun e he => hsends e (List.mem_cons_of_mem effect he)
  have hmaster : MasterInv exec pool (collectedAll s.log) { s.master with todo } := by
    have hold := h.master
    unfold MasterInv at hold ⊢
    cases hpc : s.master.pc <;> simp only [hpc] at hold ⊢
    · exact hold
    · exact ⟨hold.counters, hold.txPool, hold.orphanPool, hold.content⟩
    · exact ⟨hold.counters, hold.txPool, hold.orphanPool, hold.content⟩
  rcases hsends effect (List.mem_cons_self ..) with ⟨v, rfl⟩ | ⟨v, payload, rfl⟩
  · refine h.of_orders rfl rfl (fun w => ?_) (fun w hw => ?_) hrest hmaster
    · by_cases hw : w = v
      · subst hw; simp [System.perform, System.setWorker]
      · simp [System.perform, System.setWorker, hw]
    · have hpending : (s.perform (.unpark v) todo).master.pending pool w =
          s.master.pending pool w := by
        simp [System.perform, System.setWorker, Master.pending, htodo, Master.Effect.messageTo,
          List.filterMap_cons]
      rw [hpending]
      by_cases hw : w = v
      · subst hw; simp [System.perform, System.setWorker]
      · simp [System.perform, System.setWorker, hw]
  · refine h.of_orders rfl rfl (fun w => ?_) (fun w hw => ?_) hrest hmaster
    · by_cases hw : w = v
      · subst hw; simp [System.perform, System.setWorker]
      · simp [System.perform, System.setWorker, hw]
    · by_cases hwv : w = v
      · subst hwv
        simp [System.perform, System.setWorker, Master.pending, htodo, Master.Effect.messageTo]
      · simp [System.perform, System.setWorker, Master.pending, htodo, Master.Effect.messageTo,
          hwv, Ne.symm hwv]

/-- The master distributes the pool. -/
theorem distribute (h : Authoring exec pool data₀ fresh s) (hpool : Assigned exec pool)
    (htodo : s.master.todo = []) (hpc : s.master.pc = .concurrentPhase) :
    exec.distribute exec.workers s.master.txPool = .ok pool ∧
    Authoring exec pool data₀ fresh { s with master := { s.master with
      txPool := pool
      todo := Master.distributeEffects exec.workers pool
      pc := .collect ⟨0, 0, 0, 0, pool.length⟩ } } := by
  have hmaster := h.master
  rw [MasterInv, hpc] at hmaster
  obtain ⟨hdistribute, horphans, hmessages⟩ := hmaster
  refine ⟨hdistribute, h.of_orders rfl rfl (fun w => ⟨rfl, rfl, rfl, rfl⟩) (fun w hw => ?_)
    (distributeEffects_sends hpool.designated) ?_⟩
  · simp [Master.pending, htodo, hpc, distributeEffects_to hpool hw]
  · rw [hmessages]
    refine ⟨rfl, ?_, horphans, ?_⟩
    · simp [remaining, relocated, executedIn, orphansIn]
    · simp [horphans]

/-- The master goes back and forth in the collection loop. -/
theorem loop (h : Authoring exec pool data₀ fresh s) {c : Master.Counters}
    (hpc : s.master.pc = .collect c ∨ s.master.pc = .check c) {pc' : Master.Pc}
    (hpc' : pc' = .collect c ∨ pc' = .check c) : Authoring exec pool data₀ fresh (s.setMaster pc') := by
  have hmaster : Collected pool (collectedAll s.log) c s.master := by
    have hmaster := h.master
    rcases hpc with hpc | hpc <;> rwa [MasterInv, hpc] at hmaster
  refine h.of_orders rfl rfl (fun w => ⟨rfl, rfl, rfl, rfl⟩) (fun w hw => ?_) h.todo ?_
  · have hpending : (s.setMaster pc').master.pending pool w = s.master.pending pool w := by
      rcases hpc with hpc | hpc <;> rcases hpc' with rfl | rfl <;>
        simp [System.setMaster, Master.pending, hpc]
    rw [hpending]
    rfl
  · rcases hpc' with rfl | rfl <;> exact
      ⟨hmaster.counters, hmaster.txPool, hmaster.orphanPool, hmaster.content⟩

/-! ## The messages of the workers -/

theorem mem_collectedFrom {log : List Event} {f : MessagePayload → Option TransactionId}
    {tid : TransactionId} (h : tid ∈ (collectedAll log).filterMap fun c => f c.2) :
    ∃ c ∈ collectedAll log, tid ∈ (collectedFrom c.1 log).filterMap f := by
  obtain ⟨c, hc, hf⟩ := List.mem_filterMap.mp h
  refine ⟨c, hc, List.mem_filterMap.mpr ⟨c.2, ?_, hf⟩⟩
  rw [collectedFrom_eq]
  exact List.mem_filterMap.mpr ⟨c, hc, by simp⟩

/-- What the master is told was run by the worker, the worker has run. -/
theorem executed_sublist (h : Authoring exec pool data₀ fresh s) (hw : w ∈ exec.workers) :
    ((sentBy w s.log).filterMap MessagePayload.executed?).Sublist (s.held pool ⟨w, .ran⟩) := by
  rw [(h.workers w hw).executed]
  exact List.filter_sublist.map _

/-- A message in a channel is the first about its transaction that the master
receives. -/
theorem first_message (h : Authoring exec pool data₀ fresh s) (hw : w ∈ exec.workers) {payload : MessagePayload}
    {rest : List MessagePayload} (hq : (s.worker w).toMaster = payload :: rest)
    (tid : TransactionId) (htid : payload.executed? = some tid ∨ payload.orphan? = some tid) :
    tid ∈ pool.map Transaction.id ∧ tid ∉ executedIn (collectedAll s.log) ∧
      tid ∉ orphansIn (collectedAll s.log) := by
  have hsent : sentBy w s.log = collectedFrom w s.log ++ payload :: rest :=
    hq ▸ (h.workers w hw).channel
  have collected_sent : ∀ v ∈ exec.workers, ∀ f : MessagePayload → Option TransactionId,
      ∀ u ∈ (collectedFrom v s.log).filterMap f, u ∈ (sentBy v s.log).filterMap f := by
    intro v hv f u hu
    rw [(h.workers v hv).channel, List.filterMap_append]
    exact List.mem_append_left _ hu
  -- Where the transaction is, on account of the message under way and of a message received.
  rcases htid with htid | htid
  · have hnow : tid ∈ s.held pool ⟨w, .ran⟩ := by
      refine (h.executed_sublist hw).subset ?_
      rw [hsent, List.filterMap_append, List.filterMap_cons_some htid]
      simp
    have hnodup : ((sentBy w s.log).filterMap MessagePayload.executed?).Nodup :=
      (h.tracked.placed.nodup ⟨w, .ran⟩ hw).sublist (h.executed_sublist hw)
    refine ⟨h.tracked.placed.mem_all (p := ⟨w, .ran⟩) hw hnow, fun hmem => ?_, fun hmem => ?_⟩
    · obtain ⟨c, hc, hu⟩ := mem_collectedFrom hmem
      have hv := h.senders c hc
      have hplace := h.tracked.placed.apart ⟨c.1, .ran⟩ ⟨w, .ran⟩ tid hv hw
        ((h.executed_sublist hv).subset (collected_sent _ hv _ tid hu)) hnow
      rw [show c.1 = w from congrArg Place.worker hplace] at hu
      rw [hsent, List.filterMap_append, List.filterMap_cons_some htid] at hnodup
      exact List.disjoint_of_nodup_append hnodup hu (List.mem_cons_self ..)
    · obtain ⟨c, hc, hu⟩ := mem_collectedFrom hmem
      have hv := h.senders c hc
      have hplace := h.tracked.placed.apart ⟨c.1, .orphan⟩ ⟨w, .ran⟩ tid hv hw
        (collected_sent _ hv _ tid hu) hnow
      cases congrArg Place.slot hplace
  · have hnow : tid ∈ s.held pool ⟨w, .orphan⟩ := by
      rw [System.held, Slot.held, hsent, List.filterMap_append, List.filterMap_cons_some htid]
      simp
    have hnodup := h.tracked.placed.nodup ⟨w, .orphan⟩ hw
    refine ⟨h.tracked.placed.mem_all (p := ⟨w, .orphan⟩) hw hnow, fun hmem => ?_, fun hmem => ?_⟩
    · obtain ⟨c, hc, hu⟩ := mem_collectedFrom hmem
      have hv := h.senders c hc
      have hplace := h.tracked.placed.apart ⟨c.1, .ran⟩ ⟨w, .orphan⟩ tid hv hw
        ((h.executed_sublist hv).subset (collected_sent _ hv _ tid hu)) hnow
      cases congrArg Place.slot hplace
    · obtain ⟨c, hc, hu⟩ := mem_collectedFrom hmem
      have hv := h.senders c hc
      have hplace := h.tracked.placed.apart ⟨c.1, .orphan⟩ ⟨w, .orphan⟩ tid hv hw
        (collected_sent _ hv _ tid hu) hnow
      rw [show c.1 = w from congrArg Place.worker hplace] at hu
      rw [System.held, Slot.held, hsent, List.filterMap_append,
        List.filterMap_cons_some htid] at hnodup
      exact List.disjoint_of_nodup_append hnodup hu (List.mem_cons_self ..)

end Authoring

/-! ## The pool -/

theorem Pool.byId_of_mem {pool : Pool} (hids : (pool.map Transaction.id).Nodup) {tx : Transaction}
    (htx : tx ∈ pool) : pool.byId tx.id = some tx := by
  induction pool with
  | nil => cases htx
  | cons t pool ih =>
    rw [List.map_cons, List.nodup_cons] at hids
    rcases List.mem_cons.mp htx with rfl | htx
    · simp [byId]
    · have hne : t.id ≠ tx.id := fun he => hids.1 (he ▸ List.mem_map_of_mem htx)
      rw [byId, List.find?_cons_of_neg (by simpa using hne)]
      exact ih hids.2 htx

theorem Pool.remove_append {search : Transaction → Bool} {pool rest : Pool} {tx : Transaction}
    (h : pool.remove search = some (tx, rest)) (more : Pool) :
    Pool.remove search (pool ++ more) = some (tx, rest ++ more) := by
  induction pool generalizing rest with
  | nil => cases h
  | cons t pool ih =>
    rw [List.cons_append, remove]
    rw [remove] at h
    split
    · rename_i hs
      rw [if_pos hs] at h
      obtain ⟨rfl, rfl⟩ := Prod.mk.inj (Option.some.inj h)
      rfl
    · rename_i hs
      rw [if_neg hs] at h
      cases hr : remove search pool with
      | none => rw [hr] at h; cases h
      | some found =>
        rw [hr] at h
        obtain ⟨rfl, rfl⟩ := Prod.mk.inj (Option.some.inj h)
        rw [ih hr]
        rfl

section
variable {pool : Pool} {messages : List (ThreadId × MessagePayload)} {tx : Transaction}

/-- A message about a transaction that no message has been about takes it out of
the remaining ones. -/
theorem remove_remaining (hids : (pool.map Transaction.id).Nodup) (htx : tx ∈ pool)
    (hexecuted : tx.id ∉ executedIn messages) (horphan : tx.id ∉ orphansIn messages)
    (w : ThreadId) (payload : MessagePayload)
    (hpayload : payload.executed? = some tx.id ∧ payload.orphan? = none ∨
      payload.executed? = none ∧ payload.orphan? = some tx.id) (more : Pool) :
    Pool.remove (fun t => t.id == tx.id) (remaining pool messages ++ more) =
      some (tx, remaining pool (messages ++ [(w, payload)]) ++ more) := by
  have hmem : tx ∈ remaining pool messages :=
    List.mem_filter.mpr ⟨htx, by simp [hexecuted, horphan]⟩
  have hnodup : ((remaining pool messages).map Transaction.id).Nodup :=
    hids.sublist (List.filter_sublist.map _)
  refine Pool.remove_append ((Pool.remove_of_mem hnodup hmem).trans ?_) more
  rw [remaining, remaining, List.filter_filter]
  refine congrArg (fun rest => some (tx, rest)) (List.filter_congr fun t _ => ?_)
  rw [Bool.eq_iff_iff, Bool.and_eq_true, decide_eq_true_iff, decide_eq_true_iff,
    decide_eq_true_iff]
  simp only [executedIn, orphansIn, List.filterMap_append, List.mem_append, not_or]
  rcases hpayload with ⟨he, ho⟩ | ⟨he, ho⟩ <;> simp [he, ho] <;> tauto

end

namespace Authoring
variable {exec : Executor} {pool : Pool} {data₀ : Key → Value} {fresh : ThreadId → Prop}
  {w : ThreadId} {s s' : System}

/-- What a worker has run for another was designated for another. -/
theorem executed_by_other (h : Authoring exec pool data₀ fresh s) (hpool : Assigned exec pool)
    (hw : w ∈ exec.workers) {tx : Transaction} (htx : tx ∈ pool)
    (hsent : tx.id ∈ (sentBy w s.log).filterMap MessagePayload.executed?) : tx.tag ≠ .done w := by
  rw [(h.workers w hw).executed] at hsent
  obtain ⟨t, ht, hid⟩ := List.mem_map.mp hsent
  obtain ⟨hran, hstatus⟩ := List.mem_filter.mp ht
  have hstatus : t.execStatus = .forwarded := of_decide_eq_true hstatus
  rcases (h.workers w hw).stand.mem_ran hran with hshare | ⟨t₀, ht₀, htag, rfl⟩
  · rw [hpool.initial t (List.mem_filter.mp hshare).1] at hstatus
    cases hstatus
  · exact List.inj_on_of_nodup_map hpool.ids ht₀ htx hid ▸ htag

/-- **A message of a worker is what the master expects.** -/
theorem collectMessage_eq (h : Authoring exec pool data₀ fresh s) (hpool : Assigned exec pool)
    (hw : w ∈ exec.workers) {payload : MessagePayload} {rest : List MessagePayload}
    (hq : (s.worker w).toMaster = payload :: rest)
    {messages : List (ThreadId × MessagePayload)} (hmessages : collectedAll s.log = messages) :
    Master.collectMessage (counted pool messages) (remaining pool messages ++ relocated pool messages)
        (orphaned pool messages) w payload =
      .ok (counted pool (messages ++ [(w, payload)]),
        remaining pool (messages ++ [(w, payload)]) ++ relocated pool (messages ++ [(w, payload)]),
        orphaned pool (messages ++ [(w, payload)])) := by
  have hsent : payload ∈ sentBy w s.log := by
    rw [(h.workers w hw).channel, hq]; simp
  have hfresh := h.first_message hw hq
  rw [hmessages] at hfresh
  obtain ⟨e, -, he⟩ := List.mem_filterMap.mp hsent
  rcases Event.sent_kind he with ⟨tid, rfl⟩ | ⟨tid, rfl⟩ | ⟨e, f, rfl⟩
  · obtain ⟨hmem, hexecuted, horphan⟩ := hfresh tid (.inl rfl)
    obtain ⟨tx, htx, rfl⟩ := List.mem_map.mp hmem
    obtain ⟨v, -, htag⟩ := hpool.designated tx htx
    have hremove := remove_remaining hpool.ids htx hexecuted horphan w
      (.workerExecuted tx.id) (.inl ⟨rfl, rfl⟩) (relocated pool messages)
    have hne : w ≠ v := by
      rintro rfl
      exact h.executed_by_other hpool hw htx (List.mem_filterMap.mpr ⟨_, hsent, rfl⟩) htag
    have hpush : ∀ rest : Pool, Pool.pushBack rest { tx with tag := .done w } =
        .ok (rest ++ [{ tx with tag := .done w }]) := fun rest =>
      Pool.pushBack_of_verified (hpool.verified tx htx)
    simp only [Master.collectMessage, hremove, htag, hne, ↓reduceIte, hpush]
    simp [counted, relocated, orphaned, reportsIn, executedIn, MessagePayload.report?,
      MessagePayload.executed?, MessagePayload.orphan?, Pool.byId_of_mem hpool.ids htx]
  · obtain ⟨hmem, hexecuted, horphan⟩ := hfresh tid (.inr rfl)
    obtain ⟨tx, htx, rfl⟩ := List.mem_map.mp hmem
    have hremove := remove_remaining hpool.ids htx hexecuted horphan w
      (.workerOrphan tx.id) (.inr ⟨rfl, rfl⟩) (relocated pool messages)
    simp only [Master.collectMessage, hremove]
    simp [counted, relocated, orphaned, reportsIn, executedIn, MessagePayload.report?,
      MessagePayload.executed?, MessagePayload.orphan?, Pool.byId_of_mem hpool.ids htx]
  · have hexecuted : executedIn (messages ++ [(w, .authoringReport e f)]) = executedIn messages := by
      simp [executedIn, MessagePayload.executed?]
    have horphan : orphansIn (messages ++ [(w, .authoringReport e f)]) = orphansIn messages := by
      simp [orphansIn, MessagePayload.orphan?]
    have hremaining : remaining pool (messages ++ [(w, .authoringReport e f)]) =
        remaining pool messages := by rw [remaining, hexecuted, horphan]; rfl
    rw [hremaining]
    simp [Master.collectMessage, counted, hexecuted, relocated, orphaned, reportsIn,
      MessagePayload.report?, MessagePayload.executed?, MessagePayload.orphan?]

/-- A message goes from a channel into the record. -/
theorem of_received (h : Authoring exec pool data₀ fresh s) (hw : w ∈ exec.workers)
    {payload : MessagePayload} {rest : List MessagePayload}
    (hq : (s.worker w).toMaster = payload :: rest) (hstate : s'.state = s.state)
    (hlog : s'.log = s.log ++ [.collected w payload])
    (hworker : ∀ v, s'.worker v =
      { s.worker v with toMaster := if v = w then rest else (s.worker v).toMaster })
    (hpending : ∀ v, s'.master.pending pool v = s.master.pending pool v)
    (htodo : s'.master.todo = s.master.todo)
    (hmaster : MasterInv exec pool (collectedAll s.log ++ [(w, payload)]) s'.master) :
    Authoring exec pool data₀ fresh s' := by
  have hran : ∀ v, ran v s'.log = ran v s.log := fun v => by
    rw [hlog, ran_append]; exact List.append_nil _
  have hsent : ∀ v, sentBy v s'.log = sentBy v s.log := fun v => by
    rw [hlog, sentBy_append]; exact List.append_nil _
  have hstored : ∀ v, storedBy (some v) s'.log = storedBy (some v) s.log := fun v => by
    rw [hlog, storedBy_append]; exact List.append_nil _
  have hattempts : ∀ tid, attemptsOf tid s'.log = attemptsOf tid s.log := fun tid => by
    rw [hlog, attemptsOf_append]; exact List.append_nil _
  have hall : collectedAll s'.log = collectedAll s.log ++ [(w, payload)] := by
    simp [hlog, collectedAll, Event.received]
  have hheld : ∀ p, s'.held pool p = s.held pool p := by
    rintro ⟨v, slot⟩
    simp only [System.held, hworker, hpending]
    cases slot with
    | ran => simp only [Slot.held, hran]
    | orphan => simp only [Slot.held, hsent]
    | _ => rfl
  refine ⟨fun v hv => ?_, ⟨h.tracked.placed.congr fun p _ => hheld p, fun p hp tid htid => ?_⟩, ?_,
    ?_, fun e he => ?_, ?_⟩
  · have hinv := h.workers v hv
    rw [hworker, hpending, hstate]
    refine ⟨?_, hinv.queues, hinv.undisturbed, ?_, ?_, ?_⟩
    · rw [hran, hsent]; exact hinv.stand
    · rw [hsent, hinv.channel, hlog]
      by_cases hvw : v = w
      · subst hvw
        simp [collectedFrom, Event.collectedFrom, hq]
      · simp [collectedFrom, Event.collectedFrom, hvw, Ne.symm hvw]
    · rw [hran, hsent]; exact hinv.executed
    · rw [hran, hstored]; exact hinv.faithful
  · rw [hheld] at htid
    rw [hattempts, hworker]
    exact h.tracked.attempts p hp tid htid
  · rw [hstate]; exact h.untouched
  · rw [htodo]; exact h.todo
  · rw [hlog, List.mem_append, List.mem_singleton] at he
    rcases he with he | rfl
    · exact h.record e he
    · exact ⟨w, hw, .inr ⟨payload, rfl⟩⟩
  · rw [hall]; exact hmaster

/-- A message moves transactions about, and changes their tags. -/
theorem collectMessage_perm {c c' : Master.Counters} {txPool txPool' : Pool}
    {orphanPool orphanPool' : List Transaction} {payload : MessagePayload}
    (h : Master.collectMessage c txPool orphanPool w payload = .ok (c', txPool', orphanPool')) :
    List.Perm ((txPool' ++ orphanPool').map Transaction.content)
      ((txPool ++ orphanPool).map Transaction.content) := by
  cases payload with
  | authoringReport e f =>
    obtain ⟨-, h⟩ := Prod.mk.inj (Except.ok.inj h)
    obtain ⟨rfl, rfl⟩ := Prod.mk.inj h
    exact .refl _
  | workerOrphan tid =>
    simp only [Master.collectMessage] at h
    split at h
    · rename_i orphan rest hremove
      obtain ⟨-, h⟩ := Prod.mk.inj (Except.ok.inj h)
      obtain ⟨rfl, rfl⟩ := Prod.mk.inj h
      have hperm := ((Pool.remove_perm hremove).append_right orphanPool).map Transaction.content
      refine List.Perm.trans ?_ hperm.symm
      rw [← List.append_assoc, List.map_append]
      exact List.perm_append_singleton orphan.content _
    · cases h
  | workerExecuted tid =>
    simp only [Master.collectMessage] at h
    split at h
    · rename_i t rest hremove
      split at h
      · split at h
        · cases h
        · split at h
          · rename_i pool' hpush
            obtain ⟨-, h⟩ := Prod.mk.inj (Except.ok.inj h)
            obtain ⟨rfl, rfl⟩ := Prod.mk.inj h
            rw [Pool.pushBack_eq hpush]
            have hperm := ((Pool.remove_perm hremove).append_right orphanPool).map
              Transaction.content
            refine List.Perm.trans ?_ hperm.symm
            rw [List.append_assoc, List.singleton_append, List.map_append, List.cons_append,
              List.map_cons, List.map_cons, List.map_append]
            exact List.perm_middle
          · cases h
      · cases h
    · cases h
  | _ => cases h

/-- The master receives a message. -/
theorem collect (h : Authoring exec pool data₀ fresh s) (hpool : Assigned exec pool)
    (hw : w ∈ exec.workers) (hs : s.collect w = some s') : Authoring exec pool data₀ fresh s' := by
  unfold System.collect at hs
  have hmaster := h.master
  split at hs
  · rename_i c payload rest htodo hpc hq
    rw [MasterInv, hpc] at hmaster
    obtain ⟨rfl, htxPool, horphanPool, hcontent⟩ := hmaster
    have hcollect := h.collectMessage_eq hpool hw hq rfl
    rw [← htxPool, ← horphanPool] at hcollect
    have hperm := (collectMessage_perm hcollect).trans hcontent
    have hcollect : Master.collectMessage _ (s.received w payload rest).master.txPool
        (s.received w payload rest).master.orphanPool w payload = _ := hcollect
    simp only [hcollect] at hs
    obtain rfl := Option.some.inj hs
    refine h.of_received hw hq rfl rfl (fun v => ?_) (fun v => ?_) rfl
      ⟨rfl, rfl, rfl, hperm⟩
    · by_cases hv : v = w
      · subst hv; simp [System.received, System.setWorker]
      · simp [System.received, System.setWorker, hv]
    · simp [Master.pending, hpc, System.received, System.setWorker]
  · rename_i hpc _
    rw [MasterInv, hpc] at hmaster
    exact hmaster.elim
  · cases hs

end Authoring
end SonicChain
