import SonicChain.AuthorRun
import SonicChain.SequentialExecutor

/-! # The authored block

What `author_block` returns.  When the collection loop is left, the pool lists
for each worker the transactions that it has run (`Exited.share_txPool`): its own
stay where they were, the others come at the end as the messages about them came
in.  The block is this pool with the orphans after it.
-/

namespace SonicChain
open Worker StoreProgram

section
variable [Ed25519] {exec : Executor} {pool : Pool} {data₀ : Key → Value}
  {fresh : ThreadId → Prop} {s₁ : System} {w : ThreadId} {tx : Transaction}

/-! ## Where transactions have come to rest -/

theorem Passed.forwarded (h : Passed pool w tx) : tx.execStatus = .forwarded := by
  obtain ⟨t, -, -, rfl⟩ := h
  rfl

namespace Exited

section
variable (h : Exited exec pool data₀ fresh s₁)
include h

/-- The master has received what the worker has sent. -/
theorem collectedFrom_eq_sentBy (hw : w ∈ exec.workers) :
    collectedFrom w s₁.log = sentBy w s₁.log := by
  rw [(h.authoring.workers w hw).channel, h.resolved.received w hw, List.append_nil]

/-- What the worker has run: transactions forwarded to it early, its own, and
transactions forwarded to it later. -/
theorem ran_eq (hw : w ∈ exec.workers) : ∃ early own later, ran w s₁.log = early ++ own ++ later ∧
    Early pool w (fresh w) early ∧ own.Sublist (pool.share w) ∧ ∀ tx ∈ later, Passed pool w tx := by
  obtain ⟨-, -, e, f, early, own, later, hran, -, hearly, hown, hlater, -⟩ := h.resolved.reported w hw
  exact ⟨early, own, later, hran, hearly, hown, hlater⟩

theorem mem_executedIn {tid : TransactionId} : tid ∈ executedIn (collectedAll s₁.log) ↔
    ∃ w ∈ exec.workers, ∃ tx ∈ ran w s₁.log, tx.execStatus = .forwarded ∧ tx.id = tid := by
  constructor
  · intro htid
    obtain ⟨c, hc, hfrom⟩ := Authoring.mem_collectedFrom htid
    have hw := h.authoring.senders c hc
    rw [h.collectedFrom_eq_sentBy hw, (h.authoring.workers c.1 hw).executed] at hfrom
    obtain ⟨tx, htx, hid⟩ := List.mem_map.mp hfrom
    obtain ⟨hran, hstatus⟩ := List.mem_filter.mp htx
    exact ⟨c.1, hw, tx, hran, of_decide_eq_true hstatus, hid⟩
  · rintro ⟨w, hw, tx, htx, hstatus, rfl⟩
    have hsent : tx.id ∈ (collectedFrom w s₁.log).filterMap MessagePayload.executed? := by
      rw [h.collectedFrom_eq_sentBy hw, (h.authoring.workers w hw).executed]
      exact List.mem_map_of_mem (List.mem_filter.mpr ⟨htx, decide_eq_true hstatus⟩)
    rw [collectedFrom_eq] at hsent
    obtain ⟨payload, hpayload, htid⟩ := List.mem_filterMap.mp hsent
    obtain ⟨c, hc, hcw⟩ := List.mem_filterMap.mp hpayload
    split at hcw
    · obtain rfl := Option.some.inj hcw
      exact List.mem_filterMap.mpr ⟨c, hc, htid⟩
    · cases hcw

theorem mem_orphansIn {tid : TransactionId} : tid ∈ orphansIn (collectedAll s₁.log) ↔
    ∃ w ∈ exec.workers, tid ∈ s₁.held pool ⟨w, .orphan⟩ := by
  constructor
  · intro htid
    obtain ⟨c, hc, hfrom⟩ := Authoring.mem_collectedFrom htid
    have hw := h.authoring.senders c hc
    rw [h.collectedFrom_eq_sentBy hw] at hfrom
    exact ⟨c.1, hw, hfrom⟩
  · rintro ⟨w, hw, htid⟩
    rw [System.held, Slot.held, ← h.collectedFrom_eq_sentBy hw, collectedFrom_eq] at htid
    obtain ⟨payload, hpayload, htid⟩ := List.mem_filterMap.mp htid
    obtain ⟨c, hc, hcw⟩ := List.mem_filterMap.mp hpayload
    split at hcw
    · obtain rfl := Option.some.inj hcw
      exact List.mem_filterMap.mpr ⟨c, hc, htid⟩
    · cases hcw

/-- Every transaction has been run, or is an orphan. -/
theorem rest (htx : tx ∈ pool) : ∃ w ∈ exec.workers,
    tx.id ∈ s₁.held pool ⟨w, .ran⟩ ∨ tx.id ∈ s₁.held pool ⟨w, .orphan⟩ := by
  obtain ⟨⟨w, slot⟩, hw, hheld⟩ :=
    (h.authoring.tracked.placed.mem tx.id).mpr (List.mem_map_of_mem htx)
  by_cases hran : slot = .ran
  · exact ⟨w, hw, .inl (hran ▸ hheld)⟩
  · by_cases horphan : slot = .orphan
    · exact ⟨w, hw, .inr (horphan ▸ hheld)⟩
    · rw [h.resolved.settled w hw slot hran horphan] at hheld
      cases hheld

end

section
variable (h : Exited exec pool data₀ fresh s₁) (hpool : Assigned exec pool) (hw : w ∈ exec.workers)
include h hpool hw

/-- What stays in its place in the pool for a worker is what it has run of its
own. -/
theorem share_remaining {early own later : List Transaction}
    (hran : ran w s₁.log = early ++ own ++ later) (hearly : Early pool w (fresh w) early)
    (hown : own.Sublist (pool.share w)) (hlater : ∀ tx ∈ later, Passed pool w tx) :
    (remaining pool (collectedAll s₁.log)).share w = own := by
  have hplaced := h.authoring.tracked.placed
  have hnodup : (pool.share w).Nodup := hpool.ids.of_map.sublist List.filter_sublist
  have hshare : (remaining pool (collectedAll s₁.log)).share w = (pool.share w).filter fun tx =>
      decide (tx.id ∉ executedIn (collectedAll s₁.log) ∧ tx.id ∉ orphansIn (collectedAll s₁.log)) := by
    rw [Pool.share, remaining, Pool.share, List.filter_filter, List.filter_filter]
    simp only [Bool.and_comm]
  rw [hshare]
  refine hown.filter_eq_of_mem_iff hnodup fun tx htx => ?_
  have hmem := (List.mem_filter.mp htx).1
  have htag : tx.tag = .done w := of_decide_eq_true (List.mem_filter.mp htx).2
  rw [decide_eq_true_iff]
  constructor
  · rintro ⟨hexecuted, horphan⟩
    obtain ⟨v, hv, hheld | hheld⟩ := h.rest hmem
    · obtain ⟨t, ht, hid⟩ := List.mem_map.mp hheld
      have hinitial : t.execStatus ≠ .forwarded := fun hstatus =>
        hexecuted (h.mem_executedIn.mpr ⟨v, hv, t, ht, hstatus, hid⟩)
      rcases (h.authoring.workers v hv).stand.mem_ran ht with hown' | hpassed
      · obtain ⟨hpool', htag'⟩ := List.mem_filter.mp hown'
        obtain rfl : t = tx := List.inj_on_of_nodup_map hpool.ids hpool' hmem hid
        obtain rfl : v = w := ExecutionTag.done.inj ((of_decide_eq_true htag').symm.trans htag)
        rw [hran, List.mem_append, List.mem_append] at ht
        rcases ht with (ht | ht) | ht
        · exact absurd (hearly.passed t ht).forwarded hinitial
        · exact ht
        · exact absurd (hlater t ht).forwarded hinitial
      · exact absurd hpassed.forwarded hinitial
    · exact absurd (h.mem_orphansIn.mpr ⟨v, hv, hheld⟩) horphan
  · intro htx
    have hhere : tx ∈ ran w s₁.log := by rw [hran]; simp [htx]
    have hheld : tx.id ∈ s₁.held pool ⟨w, .ran⟩ := List.mem_map_of_mem hhere
    refine ⟨fun hexecuted => ?_, fun horphan => ?_⟩
    · obtain ⟨v, hv, t, ht, hstatus, hid⟩ := h.mem_executedIn.mp hexecuted
      have hheld' : tx.id ∈ s₁.held pool ⟨v, .ran⟩ := hid ▸ List.mem_map_of_mem ht
      obtain rfl : v = w :=
        congrArg Place.worker (hplaced.apart ⟨v, .ran⟩ ⟨w, .ran⟩ tx.id hv hw hheld' hheld)
      obtain rfl : t = tx := List.inj_on_of_nodup_map (hplaced.nodup ⟨v, .ran⟩ hw) ht hhere hid
      rw [hpool.initial t hmem] at hstatus
      cases hstatus
    · obtain ⟨v, hv, hheld'⟩ := h.mem_orphansIn.mp horphan
      cases congrArg Place.slot (hplaced.apart ⟨v, .orphan⟩ ⟨w, .ran⟩ tx.id hv hw hheld' hheld)

/-- What is at the end of the pool for a worker is what was forwarded to it and it
has run. -/
theorem share_relocated {early own later : List Transaction}
    (hran : ran w s₁.log = early ++ own ++ later) (hearly : Early pool w (fresh w) early)
    (hown : own.Sublist (pool.share w)) (hlater : ∀ tx ∈ later, Passed pool w tx) :
    (Pool.share (relocated pool (collectedAll s₁.log)) w).map Transaction.content =
      (early ++ later).map Transaction.content := by
  -- The messages about them are those of the worker.
  have hmessages : Pool.share (relocated pool (collectedAll s₁.log)) w =
      ((collectedFrom w s₁.log).filterMap MessagePayload.executed?).filterMap fun tid =>
        (pool.byId tid).map fun tx => { tx with tag := .done w } := by
    rw [collectedFrom_eq]
    generalize collectedAll s₁.log = messages
    induction messages with
    | nil => rfl
    | cons c messages ih =>
      rw [relocated] at ih ⊢
      rw [List.filterMap_cons, List.filterMap_cons]
      cases he : c.2.executed? with
      | none =>
        by_cases hcw : c.1 = w
        · simpa [hcw, he] using ih
        · simpa [hcw] using ih
      | some tid =>
        cases hid : pool.byId tid with
        | none =>
          by_cases hcw : c.1 = w
          · simpa [hcw, he, hid] using ih
          · simpa [hcw, hid] using ih
        | some tx =>
          by_cases hcw : c.1 = w
          · simpa [Pool.share, hcw, he, hid] using ih
          · simpa [Pool.share, hcw, hid] using ih
  have hforwarded : (ran w s₁.log).filter (fun tx => decide (tx.execStatus = .forwarded)) =
      early ++ later := by
    have hall : ∀ txs : List Transaction, (∀ tx ∈ txs, Passed pool w tx) →
        txs.filter (fun tx => decide (tx.execStatus = .forwarded)) = txs := fun txs htxs =>
      List.filter_eq_self.mpr fun tx htx => decide_eq_true (htxs tx htx).forwarded
    have hnone : own.filter (fun tx => decide (tx.execStatus = .forwarded)) = [] := by
      refine List.filter_eq_nil_iff.mpr fun tx htx => ?_
      simp [hpool.initial tx (List.mem_filter.mp (hown.subset htx)).1]
    rw [hran, List.filter_append, List.filter_append, hall early hearly.passed, hnone,
      hall later hlater, List.append_nil]
  have hpassed : ∀ tx ∈ early ++ later, Passed pool w tx := fun tx htx =>
    (List.mem_append.mp htx).elim (hearly.passed tx) (hlater tx)
  rw [hmessages, h.collectedFrom_eq_sentBy hw, (h.authoring.workers w hw).executed, hforwarded]
  generalize early ++ later = passed at hpassed
  induction passed with
  | nil => rfl
  | cons tx passed ih =>
    obtain ⟨t, ht, -, rfl⟩ := hpassed tx (List.mem_cons_self ..)
    have ih := ih fun u hu => hpassed u (List.mem_cons_of_mem _ hu)
    rw [List.map_cons, List.filterMap_cons_some (b := { t with tag := .done w })
      (by rw [Pool.byId_of_mem hpool.ids ht]; rfl), List.map_cons, List.map_cons, ih]
    rfl

/-- **The pool lists for a worker what it has run**: its own transactions, and then
those that were forwarded to it. -/
theorem share_txPool : ∃ early own later, ran w s₁.log = early ++ own ++ later ∧
    Early pool w (fresh w) early ∧
    (s₁.master.txPool.share w).map Transaction.content =
      (own ++ (early ++ later)).map Transaction.content := by
  obtain ⟨early, own, later, hran, hearly, hown, hlater⟩ := h.ran_eq hw
  refine ⟨early, own, later, hran, hearly, ?_⟩
  have happend : s₁.master.txPool.share w = (remaining pool (collectedAll s₁.log)).share w ++
      Pool.share (relocated pool (collectedAll s₁.log)) w := by
    rw [h.collected.txPool]
    exact List.filter_append ..
  rw [happend, List.map_append, h.share_remaining hpool hw hran hearly hown hlater,
    h.share_relocated hpool hw hran hearly hown hlater, ← List.map_append]

/-- The worker executes the same transactions as the pool lists for it. -/
theorem share_perm : List.Perm ((s₁.master.txPool.share w).map Transaction.content)
    ((ran w s₁.log).map Transaction.content) := by
  obtain ⟨early, own, later, hran, -, hshare⟩ := h.share_txPool hpool hw
  rw [hshare, hran]
  refine List.Perm.map _ ?_
  rw [← List.append_assoc]
  exact List.perm_append_comm.append_right later

/-- If nothing was forwarded to the worker before it began, in the same order. -/
theorem share_eq (hfresh : fresh w) : (s₁.master.txPool.share w).map Transaction.content =
    (ran w s₁.log).map Transaction.content := by
  obtain ⟨early, own, later, hran, hearly, hshare⟩ := h.share_txPool hpool hw
  rw [hshare, hran, hearly.nil hfresh, List.nil_append, List.nil_append]

end

/-- The transactions in the pool are tagged with workers. -/
theorem tags (h : Exited exec pool data₀ fresh s₁) (hpool : Assigned exec pool)
    (htx : tx ∈ s₁.master.txPool) : ∃ w ∈ exec.workers, tx.tag = .done w := by
  rw [h.collected.txPool, List.mem_append] at htx
  rcases htx with htx | htx
  · exact hpool.designated tx (List.mem_filter.mp htx).1
  · obtain ⟨c, hc, hbind⟩ := List.mem_filterMap.mp htx
    obtain ⟨tid, -, hbind⟩ := Option.bind_eq_some_iff.mp hbind
    obtain ⟨t, -, rfl⟩ := Option.map_eq_some_iff.mp hbind
    exact ⟨c.1, h.authoring.senders c hc, rfl⟩

end Exited

/-! ## What has been run -/

namespace Exited

/-- Each transaction of the pool was run by the worker it is tagged with. -/
theorem perm_executions (h : Exited exec pool data₀ fresh s₁) (hpool : Assigned exec pool) :
    List.Perm (executions s₁.log) (s₁.master.txPool.map fun tx => (tx.id, tx.tag)) := by
  have hexecutions := Tally.perm_filter (fun x : TransactionId × ExecutionTag => x.2)
    ExecutionTag.done_injective exec.nodup (l := executions s₁.log) fun x hx => by
      obtain ⟨e, he, hex⟩ := List.mem_filterMap.mp hx
      obtain ⟨w, hw, hby | ⟨payload, rfl⟩⟩ := h.authoring.record e he
      · cases e with
        | dispatched v tx result =>
          cases result with
          | ok success =>
            obtain rfl := Option.some.inj hex
            exact ⟨v, hby ▸ hw, rfl⟩
          | error why => cases hex
        | orphanExecuted tx => exact hby.elim
        | _ => cases hex
      · cases hex
  have htxPool := (Tally.perm_filter Transaction.tag ExecutionTag.done_injective exec.nodup
    fun tx htx => h.tags hpool htx).map fun tx : Transaction => (tx.id, tx.tag)
  refine hexecutions.trans (List.Perm.trans ?_ htxPool.symm)
  rw [List.map_flatMap]
  refine List.Perm.flatMap_left _ fun w hw => ?_
  rw [executions_filter]
  have hids := (h.share_perm hpool hw).map fun c => (c.1, ExecutionTag.done w)
  rw [List.map_map, List.map_map] at hids
  refine hids.symm.trans (List.Perm.of_eq (List.map_congr_left fun tx htx => ?_))
  have htag : tx.tag = .done w := of_decide_eq_true (List.mem_filter.mp htx).2
  rw [htag]
  rfl

end Exited

/-! ## What is returned -/

/-- How `author_block` came to return `state` and `block`: it left the collection
loop in `s₁`, and has executed the orphans since, which is recorded in `tail`. -/
structure Returned (exec : Executor) (pool : Pool) (data₀ : Key → Value) (fresh : ThreadId → Prop)
    (s₁ s : System) (tail : List Event) (state : StateMap) (block : List Transaction) : Prop where
  exited : Exited exec pool data₀ fresh s₁
  state_eq : state = s.state
  block : block = s₁.master.txPool ++ s₁.master.orphanPool
  log : s.log = s₁.log ++ tail
  ofOrphans : ∀ e ∈ tail, e.OfOrphans
  orphans : orphansExecuted tail = s₁.master.orphanPool
  run : runAll (s₁.master.orphanPool.map Transaction.code) s₁.state.data = .ok state.data
  stored : ∀ k, k ∈ storedBy none tail ↔
    k ∈ writtenAll (s₁.master.orphanPool.map Transaction.code) s₁.state.data

section
variable {s₀ s : System} {txs : List Transaction} {state : StateMap} {block : List Transaction}
  {tail : List Event}

theorem Closing.returned (h : Closing exec .author s₁ s) (hexited : Exited exec pool data₀ fresh s₁)
    (hpc : s.master.pc = .authored state block) :
    ∃ tail, Returned exec pool data₀ fresh s₁ s tail state block := by
  obtain ⟨tail, hlog, htail, hreplays | hdone⟩ := h.progress
  · rw [hpc] at hreplays
    exact hreplays.elim
  · have hreturned := hdone.pc
    rw [hpc, System.finish, System.setMaster] at hreturned
    obtain ⟨rfl, rfl⟩ := Master.Pc.authored.inj hreturned
    refine ⟨tail, hexited, rfl, ?_, hlog, htail, hdone.executed, hdone.run, hdone.stored⟩
    rw [h.txPool, h.orphanPool]

theorem Authoring.not_authored (h : Authoring exec pool data₀ fresh s) :
    s.master.pc ≠ .authored state block := by
  intro hpc
  have hmaster := h.master
  rw [MasterInv, hpc] at hmaster
  exact hmaster

theorem AuthorRun.returned (h : AuthorRun exec s₀ txs pool s)
    (hpc : s.master.pc = .authored state block) :
    ∃ s₁ tail, Returned exec pool s₀.state.data s₀.Fresh s₁ s tail state block := by
  rcases h.phase with hauthoring | ⟨s₁, hexited, hclosing⟩
  · exact absurd hpc hauthoring.not_authored
  · exact ⟨s₁, hclosing.returned hexited hpc⟩

/-- What the master does in the orphan phase is not recorded as a worker's. -/
theorem filterMap_of_ofOrphans {A : Type} {f : Event → Option A}
    (hf : ∀ e : Event, e.OfOrphans → f e = none) {events : List Event}
    (hevents : ∀ e ∈ events, e.OfOrphans) : events.filterMap f = [] :=
  List.filterMap_eq_nil_iff.mpr fun e he => hf e (hevents e he)

namespace Returned
variable (h : Returned exec pool data₀ fresh s₁ s tail state block)
include h

theorem ran_eq (w : ThreadId) : ran w s.log = ran w s₁.log := by
  rw [h.log, ran_append, ran, ran, filterMap_of_ofOrphans (fun e he => ?_) h.ofOrphans, List.append_nil]
  cases e <;> first | rfl | exact he.elim

theorem attemptsOf_eq (tid : TransactionId) : attemptsOf tid s.log = attemptsOf tid s₁.log := by
  rw [h.log, attemptsOf_append, attemptsOf, attemptsOf,
    filterMap_of_ofOrphans (fun e he => ?_) h.ofOrphans, List.append_nil]
  cases e <;> first | rfl | exact he.elim

theorem orphansExecuted_eq : orphansExecuted s.log = s₁.master.orphanPool := by
  have hnone : orphansExecuted s₁.log = [] := by
    refine List.filterMap_eq_nil_iff.mpr fun e he => ?_
    obtain ⟨w, -, hby | ⟨payload, rfl⟩⟩ := h.exited.authoring.record e he
    · cases e <;> first | rfl | exact hby.elim
    · rfl
  rw [h.log, orphansExecuted_append, hnone, List.nil_append, h.orphans]

/-- Every transaction of the block was run by what its tag says. -/
theorem perm_executions (hpool : Assigned exec pool) :
    List.Perm (executions s.log) (block.map fun tx => (tx.id, tx.tag)) := by
  have htail : executions tail = s₁.master.orphanPool.map fun tx => (tx.id, tx.tag) := by
    have hread : executions tail = (orphansExecuted tail).map fun tx => (tx.id, .orphan) := by
      have hevents := h.ofOrphans
      generalize tail = events at hevents
      induction events with
      | nil => rfl
      | cons e events ih =>
        have he := hevents e (List.mem_cons_self ..)
        have ih := ih fun e he => hevents e (List.mem_cons_of_mem _ he)
        cases e with
        | orphanExecuted tx => exact congrArg _ ih
        | stored t key => exact ih
        | _ => exact he.elim
    rw [hread, h.orphans]
    refine List.map_congr_left fun tx htx => ?_
    rw [h.exited.orphans tx htx]
  rw [h.log, h.block, executions_append, htail, List.map_append]
  exact (h.exited.perm_executions hpool).append_right _

/-- The block consists of the transactions of the pool. -/
theorem perm_content :
    List.Perm (block.map Transaction.content) (pool.map Transaction.content) := by
  rw [h.block]
  exact h.exited.collected.content

theorem share_block (w : ThreadId) : Pool.share block w = s₁.master.txPool.share w := by
  have hnone : Pool.share s₁.master.orphanPool w = [] := by
    refine List.filter_eq_nil_iff.mpr fun tx htx => ?_
    simp [h.exited.orphans tx htx]
  rw [h.block, Pool.share, List.filter_append]
  exact (congrArg _ hnone).trans (List.append_nil _)

end Returned
end

/-! ## What the pool leaves -/

/-- The codes of the pool, each with the worker that it is tagged with. -/
def Pool.codes (txs : Pool) : List (ThreadId × Storage (Except DispatchError Unit)) :=
  txs.filterMap fun tx =>
    match tx.tag with
    | .done w => some (w, tx.code)
    | _ => none

theorem Pool.map_codes {txs : Pool} (h : ∀ tx ∈ txs, ∃ w ∈ exec.workers, tx.tag = .done w) :
    txs.codes.map Prod.snd = txs.map Transaction.code := by
  induction txs with
  | nil => rfl
  | cons tx txs ih =>
    obtain ⟨w, -, htag⟩ := h tx (List.mem_cons_self ..)
    have ih := ih fun t ht => h t (List.mem_cons_of_mem _ ht)
    rw [codes] at ih ⊢
    rw [List.filterMap_cons_some (b := (w, tx.code)) (by rw [htag]), List.map_cons, ih, List.map_cons]

theorem Pool.partOf_codes (txs : Pool) (w : ThreadId) :
    partOf w txs.codes = (txs.share w).map Transaction.code := by
  rw [partOf, codes, List.filterMap_filterMap]
  induction txs with
  | nil => rfl
  | cons tx txs ih =>
    rw [share] at ih ⊢
    cases htag : tx.tag with
    | done v =>
      by_cases hv : v = w
      · simpa [List.filterMap_cons, htag, hv] using ih
      · simpa [List.filterMap_cons, htag, hv] using ih
    | orphan => simpa [List.filterMap_cons, htag] using ih
    | notExecuted => simpa [List.filterMap_cons, htag] using ih

/-- The part of somebody who is not a worker is empty. -/
theorem Pool.share_stranger {txs : Pool} (h : ∀ tx ∈ txs, ∃ w ∈ exec.workers, tx.tag = .done w)
    (hw : w ∉ exec.workers) : txs.share w = [] := by
  refine List.filter_eq_nil_iff.mpr fun tx htx => ?_
  obtain ⟨v, hv, htag⟩ := h tx htx
  rw [decide_eq_true_iff, htag]
  intro hvw
  exact hw (ExecutionTag.done.inj hvw ▸ hv)

/-- **Transactions whose workers keep to keys of their own** leave, run in order, what
each worker's leave under its keys. -/
theorem Pool.run_merge {txs : Pool} (htags : ∀ tx ∈ txs, ∃ w ∈ exec.workers, tx.tag = .done w)
    {own : Key → Option ThreadId} {data : Key → Value} {stored : ThreadId → List Key}
    (hparts : ∀ w ∈ exec.workers, ∃ view,
      runAll ((txs.share w).map Transaction.code) data₀ = .ok view ∧
        (∀ k ∈ touchedAll ((txs.share w).map Transaction.code) data₀, own k = some w) ∧
        (∀ k, own k = some w → data k = view k) ∧
        ∀ k, k ∈ stored w ↔ k ∈ writtenAll ((txs.share w).map Transaction.code) data₀)
    (hothers : ∀ k, (∀ w ∈ exec.workers, own k ≠ some w) → data k = data₀ k) :
    runAll (txs.map Transaction.code) data₀ = .ok data ∧
      ∀ k, k ∈ writtenAll (txs.map Transaction.code) data₀ ↔ ∃ w ∈ exec.workers, k ∈ stored w := by
  have hall : ∀ w, ∃ view, runAll (partOf w txs.codes) data₀ = .ok view ∧
      (∀ k ∈ touchedAll (partOf w txs.codes) data₀, own k = some w) ∧
      (w ∈ exec.workers → ∀ k, own k = some w → data k = view k) ∧
      (w ∉ exec.workers → view = data₀) ∧
      ∀ k, k ∈ writtenAll (partOf w txs.codes) data₀ ↔ w ∈ exec.workers ∧ k ∈ stored w := by
    intro w
    rw [Pool.partOf_codes]
    by_cases hw : w ∈ exec.workers
    · obtain ⟨view, hrun, htouched, hview, hstored⟩ := hparts w hw
      exact ⟨view, hrun, htouched, fun _ => hview, fun hw' => absurd hw hw',
        fun k => by simp [hw, hstored]⟩
    · rw [Pool.share_stranger htags hw]
      exact ⟨data₀, rfl, fun _ hk => absurd hk List.not_mem_nil, fun hw' => absurd hw' hw,
        fun _ => rfl, fun k => by simp [hw, writtenAll]⟩
  choose view hrun htouched hview hstranger hstored using hall
  obtain ⟨data', hdata, hmine, hnone, hwritten⟩ := runAll_merge txs.codes hrun htouched
  rw [Pool.map_codes htags] at hdata hwritten
  have hsame : data' = data := by
    funext k
    by_cases hk : ∃ w ∈ exec.workers, own k = some w
    · obtain ⟨w, hw, hk⟩ := hk
      rw [hmine w k hk, hview w hw k hk]
    · rw [hothers k fun w hw h => hk ⟨w, hw, h⟩]
      cases hown : own k with
      | none => exact hnone k hown
      | some w => rw [hmine w k hown, hstranger w fun hw => hk ⟨w, hw, hown⟩]
  refine ⟨hsame ▸ hdata, fun k => ?_⟩
  rw [hwritten]
  simp only [hstored]

/-- Each worker's transactions run alone, where they all run in order. -/
theorem Pool.run_share {txs : Pool} (htags : ∀ tx ∈ txs, ∃ w ∈ exec.workers, tx.tag = .done w)
    {own : Key → Option ThreadId} {data : Key → Value}
    (hapart : ∀ w ∈ exec.workers,
      ∀ k ∈ touchedAll ((txs.share w).map Transaction.code) data₀, own k = some w)
    (hrun : runAll (txs.map Transaction.code) data₀ = .ok data) (w : ThreadId) :
    ∃ view, runAll ((txs.share w).map Transaction.code) data₀ = .ok view := by
  rw [← Pool.map_codes htags] at hrun
  rw [← Pool.partOf_codes]
  have hown : ∀ v, ∀ k ∈ touchedAll (partOf v txs.codes) data₀, own k = some v := by
    intro v k hk
    rw [Pool.partOf_codes] at hk
    by_cases hv : v ∈ exec.workers
    · exact hapart v hv k hk
    · rw [Pool.share_stranger htags hv] at hk
      cases hk
  exact runAll_partOf txs.codes hrun hown w

theorem map_code_eq {txs txs' : List Transaction}
    (h : txs.map Transaction.content = txs'.map Transaction.content) :
    txs.map Transaction.code = txs'.map Transaction.code := by
  have hcode : Transaction.code = (fun c : TransactionId × OuterCall × AccountId × Ed25519.Signature =>
      (c.2.1.dispatch c.2.2.1).run) ∘ Transaction.content := rfl
  rw [hcode, ← List.map_map, h, List.map_map]

namespace Exited
variable (h : Exited exec pool data₀ fresh s₁) (hpool : Assigned exec pool)
  (hfresh : ∀ w ∈ exec.workers, fresh w)
include h hpool hfresh

/-- The transactions of the pool that belong to a worker, run alone, leave the
worker's part of the state, and keep to keys that it owns. -/
theorem run_share (hw : w ∈ exec.workers) : ∃ view,
    runAll ((s₁.master.txPool.share w).map Transaction.code) data₀ = .ok view ∧
      (∀ k ∈ touchedAll ((s₁.master.txPool.share w).map Transaction.code) data₀,
        ConcurrentRuntime.Owns w s₁.state k) ∧
      Synced w s₁.state view ∧
      ∀ k, k ∈ storedBy (some w) s₁.log ↔
        k ∈ writtenAll ((s₁.master.txPool.share w).map Transaction.code) data₀ := by
  obtain ⟨view, hrun, htouched, hpc⟩ := (h.authoring.workers w hw).faithful
  rw [map_code_eq (h.share_eq hpool hw (hfresh w hw))]
  have hjob : (s₁.worker w).pc.job = none := by
    rcases (h.idle hw).retired.cases.2 with ⟨-, hpc | hpc⟩ | ⟨-, hpc | hpc⟩ <;> rw [hpc] <;> rfl
  generalize (s₁.worker w).pc = pc at hpc hjob
  cases hpc with
  | outside _ hsync hstored => exact ⟨view, hrun, htouched, hsync, hstored⟩
  | _ => cases hjob

/-- **The pool, run in order, leaves the state** in which the collection loop was
left: the histories of the workers, which keep to keys of their own, are
merged in it. -/
theorem run_txPool : runAll (s₁.master.txPool.map Transaction.code) data₀ = .ok s₁.state.data ∧
    ∀ k, k ∈ writtenAll (s₁.master.txPool.map Transaction.code) data₀ ↔
      ∃ w ∈ exec.workers, k ∈ storedBy (some w) s₁.log := by
  have hothers : ∀ k, (∀ w ∈ exec.workers, s₁.state.taint k ≠ some w) →
      s₁.state.data k = data₀ k := by
    intro k hk
    refine h.authoring.untouched.fresh k ?_
    cases htaint : s₁.state.taint k with
    | none => rfl
    | some w => exact absurd htaint (hk w (h.authoring.untouched.taints k w htaint))
  exact Pool.run_merge (fun tx htx => h.tags hpool htx)
    (fun w hw => h.run_share hpool hfresh hw) hothers

end Exited

/-- **The block, run in order, leaves the state that is returned.** -/
theorem Returned.run_block {s : System} {tail : List Event} {state : StateMap}
    {block : List Transaction} (h : Returned exec pool data₀ fresh s₁ s tail state block)
    (hpool : Assigned exec pool) (hfresh : ∀ w ∈ exec.workers, fresh w) :
    runAll (block.map Transaction.code) data₀ = .ok state.data := by
  have hfront := (h.exited.run_txPool hpool hfresh).1
  rw [h.block, List.map_append, runAll_append hfront]
  exact h.run

end

/-! ## The theorems -/

section
variable [Ed25519] {exec : Executor} {pool : Pool} {s₀ s : System} {txs : List Transaction}

/-- **The master does not panic**, other than in the body of a call. -/
theorem AuthorRun.not_panicked (h : AuthorRun exec s₀ txs pool s) (why : Panic) :
    s.master.pc ≠ .panicked why := by
  intro hpc
  rcases h.phase with hauthoring | ⟨s₁, -, hclosing⟩
  · have hmaster := hauthoring.master
    rw [MasterInv, hpc] at hmaster
    exact hmaster
  · obtain ⟨tail, -, -, hreplays | hdone⟩ := hclosing.progress
    · rw [hpc] at hreplays
      exact hreplays
    · rw [hdone.pc] at hpc
      cases hpc

/-- **Each transaction is executed exactly once**, by what its tag in the block says.
No branch of the collection loop that panics is ever reached. -/
theorem executed_exactly_once (h : AuthorRun exec s₀ txs pool s) :
    (∀ why, s.master.pc ≠ .panicked why) ∧
    ∀ state block, s.master.pc = .authored state block →
      List.Perm (block.map Transaction.content) (txs.map Transaction.content) ∧
      (block.map Transaction.id).Nodup ∧
      List.Perm (executions s.log) (block.map fun tx => (tx.id, tx.tag)) ∧
      (∀ tx ∈ block, tx.tag = .orphan ∨ ∃ w ∈ exec.workers, tx.tag = .done w) ∧
      ∀ tx ∈ block, (attemptsOf tx.id s.log).length ≤ 2 := by
  refine ⟨h.not_panicked, fun state block hpc => ?_⟩
  have hpool := h.distributes.assigned h.submitted
  obtain ⟨s₁, tail, hreturned⟩ := h.returned hpc
  have hids : List.Perm (block.map Transaction.id) (pool.map Transaction.id) := by
    have hperm := hreturned.perm_content.map Prod.fst
    rwa [List.map_map, List.map_map] at hperm
  refine ⟨?_, hids.nodup_iff.mpr hpool.ids, hreturned.perm_executions hpool, fun tx htx => ?_,
    fun tx htx => ?_⟩
  · rw [← h.distributes.content]
    exact hreturned.perm_content
  · rw [hreturned.block, List.mem_append] at htx
    rcases htx with htx | htx
    · exact .inr (hreturned.exited.tags hpool htx)
    · exact .inl (hreturned.exited.orphans tx htx)
  · obtain ⟨t, ht, hid⟩ := List.mem_map.mp (hids.subset (List.mem_map_of_mem htx))
    rw [hreturned.attemptsOf_eq, ← hid]
    obtain ⟨w, hw, hheld | hheld⟩ := hreturned.exited.rest ht
    · exact hreturned.exited.authoring.tracked.attempts _ hw _ hheld
    · exact hreturned.exited.authoring.tracked.attempts _ hw _ hheld

end

section
open Testing

theorem executed_exactly_once_backAndForth :
    (∀ why, settled.master.pc ≠ .panicked why) ∧
    ∀ state block, settled.master.pc = .authored state block →
      List.Perm (block.map Transaction.content) (backAndForth.map Transaction.content) ∧
      (block.map Transaction.id).Nodup ∧
      List.Perm (executions settled.log) (block.map fun tx => (tx.id, tx.tag)) ∧
      (∀ tx ∈ block, tx.tag = .orphan ∨ ∃ w ∈ twoWorkers.workers, tx.tag = .done w) ∧
      ∀ tx ∈ block, (attemptsOf tx.id settled.log).length ≤ 2 :=
  executed_exactly_once settled_run

end

section
variable [Ed25519] {exec : Executor} {pool : Pool} {s₀ s : System} {txs : List Transaction}
  {data₀ : Key → Value} {fresh : ThreadId → Prop} {w : ThreadId} {tx : Transaction}

/-- The collection loop has been left. -/
def Master.Pc.Closes : Master.Pc → Prop
  | .executeOrphanPool _ _ => True
  | .executingOrphan _ _ _ _ => True
  | .authored _ _ => True
  | _ => False

/-- Nothing is left to do for the worker: it is not inside a dispatch, and its
channels are empty, to and from it. -/
structure Worker.Quiet (wk : Worker) : Prop where
  job : wk.pc.job = none
  fromMaster : wk.fromMaster = []
  fromOthers : ∀ v, wk.fromOthers v = []
  toMaster : wk.toMaster = []

theorem Exited.quiet (h : Exited exec pool data₀ fresh s) (hw : w ∈ exec.workers) :
    (s.worker w).Quiet := by
  have hidle := h.idle hw
  refine ⟨?_, ?_, hidle.fromOthers, hidle.toMaster⟩
  · rcases hidle.retired.cases.2 with ⟨-, hpc | hpc⟩ | ⟨-, hpc | hpc⟩ <;> rw [hpc] <;> rfl
  · exact (List.append_eq_nil_iff.mp (h.resolved.reported w hw).2.1).1

/-- At the exit each transaction has been run by a worker, or is an orphan. -/
theorem Exited.committed (h : Exited exec pool data₀ fresh s) (hpool : Assigned exec pool)
    (htx : tx ∈ pool) : (∃ w ∈ exec.workers, ∃ t ∈ ran w s.log, t.content = tx.content) ∨
      ∃ t ∈ s.master.orphanPool, t.content = tx.content := by
  have hmem : tx.content ∈ (s.master.txPool ++ s.master.orphanPool).map Transaction.content :=
    h.collected.content.symm.subset (List.mem_map_of_mem htx)
  obtain ⟨t, ht, hcontent⟩ := List.mem_map.mp hmem
  rcases List.mem_append.mp ht with ht | ht
  · obtain ⟨w, hw, htag⟩ := h.tags hpool ht
    have hshare : t ∈ s.master.txPool.share w := List.mem_filter.mpr ⟨ht, decide_eq_true htag⟩
    obtain ⟨t', ht', hcontent'⟩ := List.mem_map.mp
      ((h.share_perm hpool hw).subset (List.mem_map_of_mem hshare))
    exact .inl ⟨w, hw, t', ht', hcontent'.trans hcontent⟩
  · exact .inr ⟨t, ht, hcontent⟩

/-- The workers have reported and there is nothing left to do for them: then
everything is settled. -/
theorem Authoring.resolved_of_quiet (h : Authoring exec pool data₀ fresh s)
    (hreported : ∀ w ∈ exec.workers, ∃ e f, .authoringReport e f ∈ sentBy w s.log)
    (hquiet : ∀ w ∈ exec.workers, (s.worker w).Quiet) : Resolved exec pool fresh s := by
  have hstand : ∀ w ∈ exec.workers, Stand.Reported exec.workers pool w (fresh w)
      (s.worker w).toOthers ((s.worker w).fromMaster ++ s.master.pending pool w) (ran w s.log)
      ((sentBy w s.log).filterMap MessagePayload.report?) := by
    intro w hw
    refine (h.workers w hw).stand.reports_cases.resolve_left fun hnil => ?_
    obtain ⟨e, f, hsent⟩ := hreported w hw
    cases List.filterMap_eq_nil_iff.mp hnil _ hsent
  refine ⟨fun w hw slot hran horphan => ?_, fun w hw => (hquiet w hw).toMaster, hstand⟩
  cases slot with
  | pending => rw [System.held, Slot.held, (hstand w hw).2.1, txIds_nil]
  | executing => rw [System.held, Slot.held, (hquiet w hw).job]; rfl
  | ran => exact absurd rfl hran
  | orphan => exact absurd rfl horphan
  | forwarded v => rw [System.held, Slot.held, (hquiet w hw).fromOthers, txIds_nil]

/-- **The collection phase ends exactly when everything is resolved.** -/
theorem collection_ends_when_resolved (h : AuthorRun exec s₀ txs pool s) :
    (∀ c, s.master.pc = .collect c ∨ s.master.pc = .check c →
      Master.exitCondition exec.workers.length c s.master.orphanPool = true →
        (∀ tx ∈ txs, (∃ w ∈ exec.workers, ∃ t ∈ ran w s.log, t.content = tx.content) ∨
          ∃ t ∈ s.master.orphanPool, t.content = tx.content) ∧
        (∀ w ∈ exec.workers, (s.worker w).Quiet) ∧
        c.total = c.executedLocal + c.executedWorkers + s.master.orphanPool.length) ∧
    (s.master.pc.Closes → ∀ w ∈ exec.workers,
      (∀ payload ∈ (s.worker w).fromMaster, payload = .taskDone) ∧
      (∀ v, (s.worker w).fromOthers v = []) ∧
      ∀ m, Step w (s.worker w) s.state m → m = Worker.quiet m.worker s.state) ∧
    ∀ c, s.master.pc = .collect c ∨ s.master.pc = .check c →
      (∀ w ∈ exec.workers, ∃ e f, .authoringReport e f ∈ sentBy w s.log) →
      (∀ w ∈ exec.workers, (s.worker w).Quiet) →
        Master.exitCondition exec.workers.length c s.master.orphanPool = true := by
  have hpool := h.distributes.assigned h.submitted
  rcases h.phase with hauthoring | ⟨s₁, hexited, hclosing⟩
  · refine ⟨fun c hpc hexit => ?_, fun hcloses => ?_, fun c hpc hreported hquiet => ?_⟩
    · have hresolved := (hauthoring.exit_iff hpool hpc).mp hexit
      have hcollected := hauthoring.collected hpc
      have hexited : Exited exec pool s₀.state.data s₀.Fresh s :=
        ⟨hauthoring, hresolved, hcollected.counters ▸ hcollected⟩
      refine ⟨fun tx htx => ?_, fun w hw => hexited.quiet hw,
        hauthoring.total_eq hpool hpc hresolved⟩
      have hmem : tx.content ∈ pool.map Transaction.content := by
        rw [h.distributes.content]
        exact List.mem_map_of_mem htx
      obtain ⟨t, ht, hcontent⟩ := List.mem_map.mp hmem
      rw [← hcontent]
      exact hexited.committed hpool ht
    · have hmaster := hauthoring.master
      rw [MasterInv] at hmaster
      cases hpc : s.master.pc <;> rw [hpc] at hmaster hcloses <;> first
        | exact hmaster.elim
        | exact hcloses.elim
    · exact (hauthoring.exit_iff hpool hpc).mpr (hauthoring.resolved_of_quiet hreported hquiet)
  · have hpc : s.master.pc.Closes := by
      obtain ⟨tail, -, -, hreplays | hdone⟩ := hclosing.progress
      · cases hpc : s.master.pc <;> rw [hpc] at hreplays <;> first
          | exact hreplays.elim
          | trivial
      · rw [hdone.pc]
        trivial
    refine ⟨fun c hc => ?_, fun _ w hw => ?_, fun c hc => ?_⟩
    · rcases hc with hc | hc <;> rw [hc] at hpc <;> exact hpc.elim
    · have hidle := hclosing.workers w hw
      refine ⟨fun payload hpayload => ?_, hidle.fromOthers, fun m hm => (hidle.step hm).1⟩
      have hmem := List.mem_append_left
        (s.master.todo.filterMap (Master.Effect.messageTo w)) hpayload
      rcases hidle.retired.cases.2 with ⟨hinbox, -⟩ | ⟨hinbox, -⟩
      · rw [hinbox] at hmem
        exact List.mem_singleton.mp hmem
      · rw [hinbox] at hmem
        exact absurd hmem List.not_mem_nil
    · rcases hc with hc | hc <;> rw [hc] at hpc <;> exact hpc.elim

end

section
open Testing

namespace Testing

/-- The master has received the last message, and is about to leave the loop. -/
def collected : System :=
  (Transition.exec (System.step twoWorkers) (schedule.take (schedule.length - 4))
    (spawned.begin twoWorkers (.authorBlock backAndForth))).get (by decide +kernel)

/-- The counters at the exit condition of the collection loop. -/
def counters (s : System) : Option Master.Counters :=
  match s.master.pc with
  | .check c => some c
  | _ => none

theorem pc_of_counters {s : System} {c : Master.Counters} (h : counters s = some c) :
    s.master.pc = .check c := by
  unfold counters at h
  split at h
  · rename_i hpc
    rw [hpc, Option.some.inj h]
  · cases h

theorem collected_exits : sound twoWorkers collected = true ∧ ∃ c, counters collected = some c ∧
    Master.exitCondition twoWorkers.workers.length c collected.master.orphanPool = true := by
  decide +kernel

theorem collected_run : AuthorRun twoWorkers spawned backAndForth backAndForthPool collected where
  ready := spawned_ready
  txPool := rfl
  orphanPool := rfl
  submitted := settled_run.submitted
  distributes := settled_run.distributes
  run := ⟨schedule.take (schedule.length - 4), by decide, (Option.some_get _).symm⟩
  noPanic := not_panicked_of_sound collected_exits.1

end Testing

/-- At the exit of the loop both payments have been run, and once it has been left the
workers have nothing more to do. -/
theorem collection_ends_when_resolved_backAndForth :
    (∃ c, collected.master.pc = .check c ∧
      Master.exitCondition twoWorkers.workers.length c collected.master.orphanPool = true ∧
      (∀ tx ∈ backAndForth,
        (∃ w ∈ twoWorkers.workers, ∃ t ∈ ran w collected.log, t.content = tx.content) ∨
        ∃ t ∈ collected.master.orphanPool, t.content = tx.content) ∧
      (∀ w ∈ twoWorkers.workers, (collected.worker w).Quiet) ∧
      c.total = c.executedLocal + c.executedWorkers + collected.master.orphanPool.length) ∧
    settled.master.pc.Closes ∧ ∀ w ∈ twoWorkers.workers,
      (∀ payload ∈ (settled.worker w).fromMaster, payload = .taskDone) ∧
      (∀ v, (settled.worker w).fromOthers v = []) ∧
      ∀ m, Step w (settled.worker w) settled.state m → m = Worker.quiet m.worker settled.state := by
  obtain ⟨c, hcounters, hexit⟩ := collected_exits.2
  obtain ⟨state, block, hpc⟩ := settled_returned
  have hcloses : settled.master.pc.Closes := by
    rw [hpc]
    trivial
  have hcheck := pc_of_counters hcounters
  obtain ⟨hcommitted, hquiet, htotal⟩ :=
    (collection_ends_when_resolved collected_run).1 c (.inr hcheck) hexit
  exact ⟨⟨c, hcheck, hexit, hcommitted, hquiet, htotal⟩, hcloses,
    (collection_ends_when_resolved settled_run).2.1 hcloses⟩

end

section
variable [Ed25519] {exec : Executor} {pool : Pool} {s₀ s : System} {txs : List Transaction}
  {state : StateMap} {block : List Transaction}

/-- **The block records the order of execution**, if no worker that is still in its last
task owns a key.  Such a worker runs what is forwarded to it before it begins with its own
transactions, which the block lists first. -/
theorem block_records_order (h : AuthorRun exec s₀ txs pool s)
    (hfresh : ∀ w ∈ exec.workers, s₀.Fresh w) (hpc : s.master.pc = .authored state block) :
    (∀ w ∈ exec.workers, (Pool.share block w).map Transaction.content =
      (ran w s.log).map Transaction.content) ∧
    ∃ front, block = front ++ orphansExecuted s.log ∧ (∀ tx ∈ front, tx.tag ≠ .orphan) ∧
      ∀ tx ∈ orphansExecuted s.log, tx.tag = .orphan := by
  have hpool := h.distributes.assigned h.submitted
  obtain ⟨s₁, tail, hreturned⟩ := h.returned hpc
  refine ⟨fun w hw => ?_, s₁.master.txPool, ?_, fun tx htx => ?_, ?_⟩
  · rw [hreturned.share_block, hreturned.ran_eq]
    exact hreturned.exited.share_eq hpool hw (hfresh w hw)
  · rw [hreturned.orphansExecuted_eq]
    exact hreturned.block
  · obtain ⟨w, -, htag⟩ := hreturned.exited.tags hpool htx
    rw [htag]
    nofun
  · rw [hreturned.orphansExecuted_eq]
    exact hreturned.exited.orphans

end

section
open Testing

theorem block_records_order_backAndForth :
    ∃ state block, settled.master.pc = .authored state block ∧
      (∀ w ∈ twoWorkers.workers, (Pool.share block w).map Transaction.content =
        (ran w settled.log).map Transaction.content) ∧
      ∃ front, block = front ++ orphansExecuted settled.log ∧ (∀ tx ∈ front, tx.tag ≠ .orphan) ∧
        ∀ tx ∈ orphansExecuted settled.log, tx.tag = .orphan := by
  obtain ⟨state, block, hpc⟩ := settled_returned
  exact ⟨state, block, hpc,
    block_records_order settled_run (fun w _ => spawned_fresh w) hpc⟩

/-! ### A worker that has not left its last task

An empty block is authored, and worker 1 stays behind in it while the executor is cleaned
and is given a state in which alice's entry is tainted by it.  What is forwarded to it
then, it runs before it begins with its own transactions. -/

namespace Testing

def idling : List Action :=
  List.replicate 9 Action.master ++ List.replicate 6 (Action.worker 1) ++
    List.replicate 5 (Action.worker 2) ++
    [Action.collect 1, .master, .collect 2] ++ List.replicate 4 Action.master

def idled : System :=
  (Transition.exec (System.step twoWorkers) idling
    (spawned.begin twoWorkers (.authorBlock []))).get (by decide +kernel)

/-- Alice has 10, and her entry is worker 1's. -/
def tainted : StateMap :=
  (∅ : StateMap).insert (balanceOf.keyFor alice) ⟨leBytes 16 10 ++ leBytes 16 0, some 1⟩

def lingering : System :=
  (idled.begin twoWorkers .clean).begin twoWorkers (.applyState tainted)

/-- Alice can pay bob or dave, but not both. -/
def eitherPayment : List Transaction :=
  [signed 7 (.balances (.transfer bob 8)) alice, signed 8 (.balances (.transfer dave 5)) alice]

def eitherPaymentPool : Pool :=
  eitherPayment.mapIdx fun i tx => { tx with tag := .done (twoWorkers.workers.getD (i % 2) 0) }

/-- Worker 2 forwards its transaction to worker 1, which runs it in its last task. -/
def overtaken : System :=
  (Transition.exec (System.step twoWorkers)
    (List.replicate 11 Action.master ++ List.replicate 8 (Action.worker 2) ++
      [Action.receive 1 2] ++ List.replicate 6 (Action.worker 1) ++
      [Action.commit 1 (balanceOf.keyFor alice), .commit 1 (balanceOf.keyFor dave)] ++
      List.replicate 9 (Action.worker 1) ++
      [Action.collect 2, .master, .collect 1, .master, .collect 1] ++
      List.replicate 4 Action.master)
    (lingering.begin twoWorkers (.authorBlock eitherPayment))).get (by decide +kernel)

theorem idled_returns : sound twoWorkers idled = true ∧ System.Callable idled.master.pc = true := by
  decide +kernel

theorem idled_run : AuthorRun twoWorkers spawned [] [] idled where
  ready := spawned_ready
  txPool := rfl
  orphanPool := rfl
  submitted := ⟨by decide, by decide, by decide⟩
  distributes := ⟨rfl, .nil⟩
  run := ⟨idling, by decide, (Option.some_get _).symm⟩
  noPanic := not_panicked_of_sound idled_returns.1

theorem idled_ready : idled.Ready twoWorkers := (idled_run.ready_again idled_returns.2).1

theorem tainted_workers (k : Key) (o : ThreadId) (hk : tainted.taint k = some o) :
    o ∈ twoWorkers.workers := by
  rw [tainted, StateType.taint_insert] at hk
  by_cases hkey : k = balanceOf.keyFor alice
  · subst hkey
    rw [Function.update_self] at hk
    obtain rfl := Option.some.inj hk
    decide
  · rw [Function.update_of_ne hkey] at hk
    cases hk

theorem lingering_ready : lingering.Ready twoWorkers := by
  have hready := idled_ready
  refine ⟨hready.workers, hready.fromOthers, hready.toMaster, hready.todo, rfl, fun k o hk => ?_⟩
  change (tainted ∪ ∅ : StateMap).taint k = some o at hk
  rw [Finmap.union_empty] at hk
  exact tainted_workers k o hk

theorem lingering_reached :
    ∃ as, Transition.exec (System.step twoWorkers) as spawned = some lingering := by
  refine ⟨.call (.authorBlock []) :: idling ++ [.call .clean, .call (.applyState tainted)], ?_⟩
  have hidled : Transition.exec (System.step twoWorkers) (.call (.authorBlock []) :: idling) spawned =
      some idled := (Option.some_get _).symm
  rw [Transition.exec_append, hidled, Option.bind_some, Transition.exec,
    System.step, idled_ready.callable, idled_ready.todo]
  rfl

/-- What the block says is run, what has been run, and what bob has got of it. -/
theorem overtaken_returns : sound twoWorkers overtaken = true ∧
    (∃ r, returned overtaken = some r ∧ (Pool.share r.2 1).map Transaction.id = [7, 8] ∧
      r.1.data (balanceOf.keyFor bob) = [] ∧
      (SequentialExecutor.applyTransaction r.2 lingering.state).map
        (fun seqState => seqState.data (balanceOf.keyFor bob)) =
          .ok (leBytes 16 8 ++ leBytes 16 0)) ∧
    (ran 1 overtaken.log).map Transaction.id = [8, 7] := by
  decide +kernel

theorem overtaken_run : AuthorRun twoWorkers lingering eitherPayment eitherPaymentPool overtaken where
  ready := lingering_ready
  txPool := rfl
  orphanPool := rfl
  submitted := ⟨by decide +kernel, by decide, by decide⟩
  distributes := ⟨rfl, .cons ⟨1, by decide, rfl⟩ (.cons ⟨2, by decide, rfl⟩ .nil)⟩
  run := ⟨_, by decide, (Option.some_get _).symm⟩
  noPanic := not_panicked_of_sound overtaken_returns.1

end Testing

/-- The block lists 7 before 8, but worker 1 has run 8 first. -/
theorem block_not_in_order : AuthorRun twoWorkers lingering eitherPayment eitherPaymentPool overtaken ∧
    ∃ state block, overtaken.master.pc = .authored state block ∧
      ¬ (Pool.share block 1).map Transaction.content = (ran 1 overtaken.log).map Transaction.content := by
  obtain ⟨-, ⟨⟨state, block⟩, hreturned, hshare, -⟩, hran⟩ := overtaken_returns
  refine ⟨overtaken_run, state, block, pc_of_returned hreturned, fun h => ?_⟩
  have hid := congrArg (List.map Prod.fst) h
  rw [List.map_map, List.map_map] at hid
  exact absurd (hshare.symm.trans (Eq.trans hid hran)) (by decide)

end

section
variable [Ed25519] {exec : Executor} {pool : Pool} {s₀ s : System} {txs : List Transaction}
  {state : StateMap} {block : List Transaction}

/-- **Concurrent authoring is serializable**, if no worker that is still in its last task
owns a key: the state it returns has the data that the transactions of the block leave
when they are executed one by one. -/
theorem author_block_serializable (h : AuthorRun exec s₀ txs pool s)
    (hfresh : ∀ w ∈ exec.workers, s₀.Fresh w) (hpc : s.master.pc = .authored state block) :
    ∃ seqState, SequentialExecutor.applyTransaction block s₀.state = .ok seqState ∧
      state.data = seqState.data := by
  have hpool := h.distributes.assigned h.submitted
  obtain ⟨s₁, tail, hreturned⟩ := h.returned hpc
  have hrun := hreturned.run_block hpool hfresh
  obtain ⟨seqState, hseq, hdata, -⟩ := SequentialExecutor.applyTransaction_of_ok hrun
  exact ⟨seqState, hseq, hdata.symm⟩

end

section
open Testing

theorem author_block_serializable_backAndForth :
    ∃ state block, settled.master.pc = .authored state block ∧
      ∃ seqState, SequentialExecutor.applyTransaction block spawned.state = .ok seqState ∧
        state.data = seqState.data := by
  obtain ⟨state, block, hpc⟩ := settled_returned
  exact ⟨state, block, hpc,
    author_block_serializable settled_run (fun w _ => spawned_fresh w) hpc⟩

/-- In the order of the block it is bob who is paid, and not dave. -/
theorem author_block_not_serializable :
    (∃ as, Transition.exec (System.step twoWorkers) as spawned = some lingering) ∧
    AuthorRun twoWorkers lingering eitherPayment eitherPaymentPool overtaken ∧
    ∃ state block, overtaken.master.pc = .authored state block ∧
      ¬ ∃ seqState, SequentialExecutor.applyTransaction block lingering.state = .ok seqState ∧
        state.data = seqState.data := by
  obtain ⟨-, ⟨⟨state, block⟩, hreturned, -, hdata, hseq⟩, -⟩ := overtaken_returns
  refine ⟨lingering_reached, overtaken_run, state, block, pc_of_returned hreturned, ?_⟩
  rintro ⟨seqState, hrun, heq⟩
  rw [hrun] at hseq
  have hpaid : seqState.data (balanceOf.keyFor bob) = leBytes 16 8 ++ leBytes 16 0 :=
    Except.ok.inj hseq
  rw [← heq] at hpaid
  exact absurd (Eq.trans hdata.symm hpaid) (by decide)

end
end SonicChain
