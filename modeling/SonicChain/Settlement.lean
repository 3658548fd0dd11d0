import SonicChain.Collection

/-! # When everything is settled

The exit condition of the collection loop is a count over the messages received.
It decides whether everything is settled (`Authoring.exit_iff`): all workers have
reported, each transaction has been run or sent to the master as an orphan, and no
message is under way.
-/

namespace SonicChain
open Worker

variable [Ed25519]

/-- Everything is settled. -/
structure Resolved (exec : Executor) (pool : Pool) (fresh : ThreadId → Prop) (s : System) : Prop where
  settled : ∀ w ∈ exec.workers, ∀ slot, slot ≠ .ran → slot ≠ .orphan → s.held pool ⟨w, slot⟩ = []
  received : ∀ w ∈ exec.workers, (s.worker w).toMaster = []
  reported : ∀ w ∈ exec.workers, Stand.Reported exec.workers pool w (fresh w) (s.worker w).toOthers
    ((s.worker w).fromMaster ++ s.master.pending pool w) (ran w s.log)
    ((sentBy w s.log).filterMap MessagePayload.report?)

namespace Stand
variable {workers : List ThreadId} {pool : Pool} {w : ThreadId} {fresh : Prop} {pc : Pc}
  {toOthers : List ThreadId} {inbox : List MessagePayload} {ran : List Transaction}
  {reports : List (Nat × Nat)}

/-- A worker reports at most once. -/
theorem reports_cases (h : Stand workers pool w fresh pc toOthers inbox ran reports) :
    reports = [] ∨ Reported workers pool w fresh toOthers inbox ran reports := by
  cases h with
  | polling _ hearly hown hlater he hf =>
    exact .inr ⟨rfl, rfl, _, _, _, _, _, rfl, rfl, hearly, hown, hlater, he, hf⟩
  | second _ _ _ hearly hown hlater he hf =>
    exact .inr ⟨rfl, rfl, _, _, _, _, _, rfl, rfl, hearly, hown, hlater, he, hf⟩
  | _ => exact .inl rfl

/-- A report accounts for the worker's share: what it says was executed, with what
was run for others, is what the worker has run. -/
theorem Reported.count (h : Reported workers pool w fresh toOthers inbox ran reports)
    (hinitial : ∀ tx ∈ pool, tx.execStatus = .initial) :
    ∃ e f, reports = [(e, f)] ∧ e + f = (pool.share w).length ∧
      e + (ran.filter fun tx => decide (tx.execStatus = .forwarded)).length = ran.length := by
  obtain ⟨-, -, e, f, early, own, later, rfl, rfl, hearly, hown, hlater, rfl, hf⟩ := h
  refine ⟨_, f, rfl, hf, ?_⟩
  have hnone : own.filter (fun tx => decide (tx.execStatus = .forwarded)) = [] := by
    refine List.filter_eq_nil_iff.mpr fun tx htx => ?_
    simp [hinitial tx (List.mem_filter.mp (hown.subset htx)).1]
  have hall : ∀ txs : List Transaction, (∀ tx ∈ txs, Passed pool w tx) →
      txs.filter (fun tx => decide (tx.execStatus = .forwarded)) = txs := by
    intro txs htxs
    refine List.filter_eq_self.mpr fun tx htx => ?_
    obtain ⟨t, -, -, rfl⟩ := htxs tx htx
    rfl
  rw [List.filter_append, List.filter_append, hnone, hall early hearly.passed, hall later hlater]
  simp only [List.length_append, List.length_nil]
  omega

end Stand

/-- Every transaction is in the share of one worker. -/
theorem sum_share {exec : Executor} {pool : Pool}
    (h : ∀ tx ∈ pool, ∃ w ∈ exec.workers, tx.tag = .done w) :
    (exec.workers.map fun w => (pool.share w).length).sum = pool.length := by
  induction pool with
  | nil => simp [Pool.share]
  | cons tx pool ih =>
    obtain ⟨w, hw, htag⟩ := h tx (List.mem_cons_self ..)
    have ih := ih fun t ht => h t (List.mem_cons_of_mem _ ht)
    have hone : ∀ v, (Pool.share (tx :: pool) v).length =
        (Pool.share pool v).length + if v = w then 1 else 0 := by
      intro v
      by_cases hv : v = w
      · subst hv; simp [Pool.share, htag]
      · simp [Pool.share, htag, hv, Ne.symm hv]
    simp only [hone, List.sum_map_add, ih, List.length_cons]
    rw [Tally.sum_indicator exec.nodup hw]

namespace Authoring
variable {exec : Executor} {pool : Pool} {data₀ : Key → Value} {fresh : ThreadId → Prop}
  {w : ThreadId} {s : System}

/-- The places where transactions come to rest. -/
def ends (exec : Executor) : List Place := exec.workers.flatMap fun w => [⟨w, .ran⟩, ⟨w, .orphan⟩]

theorem mem_ends {p : Place} :
    p ∈ ends exec ↔ p.worker ∈ exec.workers ∧ (p.slot = .ran ∨ p.slot = .orphan) := by
  obtain ⟨v, slot⟩ := p
  simp only [ends, List.mem_flatMap, List.mem_cons, Place.mk.injEq, List.not_mem_nil, or_false]
  constructor
  · rintro ⟨w, hw, ⟨rfl, rfl⟩ | ⟨rfl, rfl⟩⟩ <;> simp [hw]
  · rintro ⟨hv, rfl | rfl⟩ <;> exact ⟨v, hv, by simp⟩

theorem nodup_ends : (ends exec).Nodup := by
  rw [ends, List.nodup_flatMap]
  refine ⟨fun w _ => by simp, exec.nodup.imp fun {v w} hvw p hp hq => ?_⟩
  simp only [List.mem_cons, List.not_mem_nil, or_false] at hp hq
  rcases hp with rfl | rfl <;> simp [hvw] at hq

theorem length_ends (s : System) : ((ends exec).flatMap (s.held pool)).length =
    (exec.workers.map fun w =>
      (s.held pool ⟨w, .ran⟩).length + (s.held pool ⟨w, .orphan⟩).length).sum := by
  rw [ends, List.flatMap_assoc, List.length_flatMap]
  simp

/-- The number of messages of a kind is the sum over the workers. -/
theorem length_received (h : Authoring exec pool data₀ fresh s) {A : Type}
    (f : MessagePayload → Option A) :
    ((collectedAll s.log).filterMap fun c => f c.2).length =
      (exec.workers.map fun w => ((collectedFrom w s.log).filterMap f).length).sum := by
  rw [(Tally.perm_flatMap exec.nodup h.senders f).length_eq, List.length_flatMap]
  simp only [collectedFrom_eq]
  rfl

theorem sum_received (h : Authoring exec pool data₀ fresh s) {A : Type} (f : MessagePayload → Option A)
    (g : A → Nat) : (((collectedAll s.log).filterMap fun c => f c.2).map g).sum =
      (exec.workers.map fun w => (((collectedFrom w s.log).filterMap f).map g).sum).sum := by
  rw [Tally.sum_eq exec.nodup h.senders f g]
  simp only [collectedFrom_eq]
  rfl

/-- What the master has received of a worker is no more than the worker has sent. -/
theorem received_le (h : Authoring exec pool data₀ fresh s) (hw : w ∈ exec.workers) {A : Type}
    (f : MessagePayload → Option A) :
    ((collectedFrom w s.log).filterMap f).length + ((s.worker w).toMaster.filterMap f).length =
      ((sentBy w s.log).filterMap f).length := by
  rw [(h.workers w hw).channel, List.filterMap_append, List.length_append]

theorem length_orphaned (h : Authoring exec pool data₀ fresh s) (hpool : Assigned exec pool) :
    (orphaned pool (collectedAll s.log)).length = (orphansIn (collectedAll s.log)).length := by
  have hmem : ∀ c ∈ collectedAll s.log, ∀ tid, c.2.orphan? = some tid →
      ∃ tx, pool.byId tid = some tx := by
    intro c hc tid htid
    have hv := h.senders c hc
    have hheld : tid ∈ s.held pool ⟨c.1, .orphan⟩ := by
      rw [System.held, Slot.held, (h.workers c.1 hv).channel, List.filterMap_append, collectedFrom_eq]
      refine List.mem_append_left _ (List.mem_filterMap.mpr ⟨c.2, ?_, htid⟩)
      exact List.mem_filterMap.mpr ⟨c, hc, by simp⟩
    obtain ⟨tx, htx, rfl⟩ := List.mem_map.mp (h.tracked.placed.mem_all hv hheld)
    exact ⟨tx, Pool.byId_of_mem hpool.ids htx⟩
  generalize collectedAll s.log = messages at hmem
  induction messages with
  | nil => rfl
  | cons c messages ih =>
    have ih := ih fun c hc => hmem c (List.mem_cons_of_mem _ hc)
    rw [orphaned, orphansIn] at ih ⊢
    cases ho : c.2.orphan? with
    | none => simpa [List.filterMap_cons, ho] using ih
    | some tid =>
      obtain ⟨tx, htx⟩ := hmem c (List.mem_cons_self ..) tid ho
      simpa [List.filterMap_cons, ho, htx] using ih

/-- What the counters say, worker by worker. -/
theorem counted_eq (h : Authoring exec pool data₀ fresh s) :
    counted pool (collectedAll s.log) =
      { executedWorkers := (exec.workers.map fun w =>
          (((collectedFrom w s.log).filterMap MessagePayload.report?).map Prod.fst).sum).sum
        executedLocal := (exec.workers.map fun w =>
          ((collectedFrom w s.log).filterMap MessagePayload.executed?).length).sum
        forwarded := (exec.workers.map fun w =>
          (((collectedFrom w s.log).filterMap MessagePayload.report?).map Prod.snd).sum).sum
        reported := (exec.workers.map fun w =>
          ((collectedFrom w s.log).filterMap MessagePayload.report?).length).sum
        total := pool.length } := by
  rw [counted, reportsIn, executedIn, h.sum_received, h.sum_received, h.length_received,
    h.length_received]

/-- A worker whose messages have all been received has none in its channel. -/
theorem toMaster_eq_nil (h : Authoring exec pool data₀ fresh s) (hw : w ∈ exec.workers)
    (hexecuted : (s.worker w).toMaster.filterMap MessagePayload.executed? = [])
    (horphan : (s.worker w).toMaster.filterMap MessagePayload.orphan? = [])
    (hreport : (s.worker w).toMaster.filterMap MessagePayload.report? = []) :
    (s.worker w).toMaster = [] := by
  refine List.eq_nil_iff_forall_not_mem.mpr fun payload hp => ?_
  have hsent : payload ∈ sentBy w s.log := by
    rw [(h.workers w hw).channel]
    exact List.mem_append_right _ hp
  obtain ⟨e, -, he⟩ := List.mem_filterMap.mp hsent
  rcases Event.sent_kind he with ⟨tid, rfl⟩ | ⟨tid, rfl⟩ | ⟨e, f, rfl⟩
  · exact absurd (List.filterMap_eq_nil_iff.mp hexecuted _ hp) nofun
  · exact absurd (List.filterMap_eq_nil_iff.mp horphan _ hp) nofun
  · exact absurd (List.filterMap_eq_nil_iff.mp hreport _ hp) nofun

/-- The number of transactions that have come to rest at a worker. -/
theorem length_rest (h : Authoring exec pool data₀ fresh s) (hw : w ∈ exec.workers) :
    (s.held pool ⟨w, .ran⟩).length = (ran w s.log).length ∧
      ((ran w s.log).filter fun tx => decide (tx.execStatus = .forwarded)).length =
        ((sentBy w s.log).filterMap MessagePayload.executed?).length := by
  rw [(h.workers w hw).executed, List.length_map]
  exact ⟨List.length_map .., rfl⟩

/-- Once all workers have reported, to the master's knowledge, the shares are
accounted for. -/
theorem reports_count (h : Authoring exec pool data₀ fresh s) (hpool : Assigned exec pool)
    (hreported : ∀ w ∈ exec.workers,
      ((collectedFrom w s.log).filterMap MessagePayload.report?).length = 1) :
    ∀ w ∈ exec.workers,
      (s.worker w).toMaster.filterMap MessagePayload.report? = [] ∧
      Stand.Reported exec.workers pool w (fresh w) (s.worker w).toOthers
        ((s.worker w).fromMaster ++ s.master.pending pool w) (ran w s.log)
        ((sentBy w s.log).filterMap MessagePayload.report?) ∧
      (((collectedFrom w s.log).filterMap MessagePayload.report?).map Prod.fst).sum +
        (((collectedFrom w s.log).filterMap MessagePayload.report?).map Prod.snd).sum =
          (pool.share w).length ∧
      (((collectedFrom w s.log).filterMap MessagePayload.report?).map Prod.fst).sum +
        ((sentBy w s.log).filterMap MessagePayload.executed?).length =
          (s.held pool ⟨w, .ran⟩).length := by
  intro w hw
  have hone := hreported w hw
  have hchannel := congrArg (List.filterMap MessagePayload.report?) (h.workers w hw).channel
  rw [List.filterMap_append] at hchannel
  have hstand := (h.workers w hw).stand.reports_cases.resolve_left fun hnil => by
    rw [hnil] at hchannel
    rw [(List.append_eq_nil_iff.mp hchannel.symm).1] at hone
    cases hone
  obtain ⟨e, f, hef, hshare, hran⟩ := hstand.count hpool.initial
  -- The one report is the one received.
  have hlen := congrArg List.length hchannel
  rw [hef, List.length_append, hone] at hlen
  have hnil : (s.worker w).toMaster.filterMap MessagePayload.report? = [] :=
    List.length_eq_zero_iff.mp (by simpa using hlen)
  rw [hnil, List.append_nil, hef] at hchannel
  obtain ⟨hheld, hforwarded⟩ := h.length_rest hw
  refine ⟨hnil, hstand, ?_, ?_⟩
  · rw [← hchannel]; simpa using hshare
  · rw [← hchannel, hheld, ← hforwarded]; simpa using hran

/-- Once everything is settled, what the master has counted is everything. -/
theorem resolved_count (h : Authoring exec pool data₀ fresh s) (hpool : Assigned exec pool)
    (hres : Resolved exec pool fresh s) :
    (∀ w ∈ exec.workers, ((collectedFrom w s.log).filterMap MessagePayload.report?).length = 1) ∧
      (exec.workers.map fun w =>
        (((collectedFrom w s.log).filterMap MessagePayload.report?).map Prod.fst).sum +
          ((collectedFrom w s.log).filterMap MessagePayload.executed?).length +
          ((collectedFrom w s.log).filterMap MessagePayload.orphan?).length).sum =
        pool.length := by
  have hchannel : ∀ w ∈ exec.workers, collectedFrom w s.log = sentBy w s.log := by
    intro w hw
    rw [(h.workers w hw).channel, hres.received w hw, List.append_nil]
  have hone : ∀ w ∈ exec.workers,
      ((collectedFrom w s.log).filterMap MessagePayload.report?).length = 1 := by
    intro w hw
    obtain ⟨e, f, hef, -⟩ := (hres.reported w hw).count hpool.initial
    rw [hchannel w hw, hef]
    rfl
  refine ⟨hone, ?_⟩
  have hrest := h.tracked.placed.rest_empty_iff hpool.ids nodup_ends
    fun p hp => (mem_ends.mp hp).1
  rw [length_ends, List.length_map] at hrest
  rw [← hrest.mp fun p hp hpe => ?_]
  · refine congrArg List.sum (List.map_congr_left fun w hw => ?_)
    have := (h.reports_count hpool hone w hw).2.2.2
    rw [hchannel w hw] at this ⊢
    change _ = _ + ((sentBy w s.log).filterMap MessagePayload.orphan?).length
    omega
  · refine hres.settled p.worker hp p.slot (fun he => hpe ?_) fun he => hpe ?_
    · exact mem_ends.mpr ⟨hp, .inl he⟩
    · exact mem_ends.mpr ⟨hp, .inr he⟩

/-- The counters of the master in the collection loop. -/
theorem counters_eq (h : Authoring exec pool data₀ fresh s) (hpool : Assigned exec pool)
    {c : Master.Counters} (hpc : s.master.pc = .collect c ∨ s.master.pc = .check c) :
    c = counted pool (collectedAll s.log) ∧ s.master.orphanPool.length =
      (exec.workers.map fun w =>
        ((collectedFrom w s.log).filterMap MessagePayload.orphan?).length).sum := by
  have hmaster : Collected pool (collectedAll s.log) c s.master := by
    have hmaster := h.master
    rcases hpc with hpc | hpc <;> rwa [MasterInv, hpc] at hmaster
  refine ⟨hmaster.counters, ?_⟩
  rw [hmaster.orphanPool, h.length_orphaned hpool, orphansIn, h.length_received]

/-- **The exit condition decides whether everything is settled.** -/
theorem exit_iff (h : Authoring exec pool data₀ fresh s) (hpool : Assigned exec pool)
    {c : Master.Counters} (hpc : s.master.pc = .collect c ∨ s.master.pc = .check c) :
    Master.exitCondition exec.workers.length c s.master.orphanPool = true ↔
      Resolved exec pool fresh s := by
  obtain ⟨rfl, horphans⟩ := h.counters_eq hpool hpc
  rw [Master.exitCondition, h.counted_eq, horphans, Bool.and_eq_true, beq_iff_eq, beq_iff_eq]
  dsimp only
  constructor
  · rintro ⟨hreported, hforwarded⟩
    have hrest := h.tracked.placed.rest_empty_iff hpool.ids nodup_ends
      fun p hp => (mem_ends.mp hp).1
    rw [length_ends, List.length_map] at hrest
    have hle := h.tracked.placed.length_flatMap_le nodup_ends fun p hp => (mem_ends.mp hp).1
    rw [length_ends, List.length_map] at hle
    have hone : ∀ w ∈ exec.workers,
        ((collectedFrom w s.log).filterMap MessagePayload.report?).length = 1 := by
      refine Tally.eq_of_sum_le exec.workers (b := fun _ => 1) (fun w hw => ?_) (by simpa using hreported.ge)
      have hsent := h.received_le hw MessagePayload.report?
      rcases (h.workers w hw).stand.reports_cases with hnil | hstand
      · rw [hnil, List.length_nil] at hsent; omega
      · obtain ⟨e, f, hef, -⟩ := hstand.count hpool.initial
        rw [hef, List.length_singleton] at hsent; omega
    have hcount := h.reports_count hpool hone
    -- As many as there are have been received to be at rest.
    have heq := Tally.eq_of_sum_le exec.workers
      (a := fun w =>
        (((collectedFrom w s.log).filterMap MessagePayload.report?).map Prod.fst).sum +
          ((collectedFrom w s.log).filterMap MessagePayload.executed?).length +
          ((collectedFrom w s.log).filterMap MessagePayload.orphan?).length)
      (b := fun w => (s.held pool ⟨w, .ran⟩).length + (s.held pool ⟨w, .orphan⟩).length)
      (fun w hw => ?_) ?_
    · have hreceived : ∀ w ∈ exec.workers,
          (s.worker w).toMaster.filterMap MessagePayload.executed? = [] ∧
            (s.worker w).toMaster.filterMap MessagePayload.orphan? = [] := by
        intro w hw
        have hw' := heq w hw
        have hexecuted := h.received_le hw MessagePayload.executed?
        have horphan := h.received_le hw MessagePayload.orphan?
        have := (hcount w hw).2.2.2
        change _ = _ + ((sentBy w s.log).filterMap MessagePayload.orphan?).length at hw'
        constructor <;> refine List.length_eq_zero_iff.mp ?_ <;> omega
      refine ⟨fun w hw slot hs hs' => ?_, fun w hw => ?_, fun w hw => (hcount w hw).2.1⟩
      · refine hrest.mpr (Nat.le_antisymm hle ?_) ⟨w, slot⟩ hw fun hmem => ?_
        · rw [← sum_share hpool.designated, ← List.map_congr_left heq,
            ← List.map_congr_left fun w hw => (hcount w hw).2.2.1]
          simp only [List.sum_map_add]
          omega
        · exact (mem_ends.mp hmem).2.elim hs hs'
      · exact h.toMaster_eq_nil hw (hreceived w hw).1 (hreceived w hw).2 (hcount w hw).1
    · have hexecuted := h.received_le hw MessagePayload.executed?
      have horphan := h.received_le hw MessagePayload.orphan?
      have := (hcount w hw).2.2.2
      change _ ≤ _ + ((sentBy w s.log).filterMap MessagePayload.orphan?).length
      omega
    · refine hle.trans ?_
      rw [← sum_share hpool.designated,
        ← List.map_congr_left fun w hw => (hcount w hw).2.2.1]
      simp only [List.sum_map_add]
      omega
  · intro hres
    obtain ⟨hone, htotal⟩ := h.resolved_count hpool hres
    refine ⟨?_, ?_⟩
    · rw [List.map_congr_left hone]
      simp
    · rw [← sum_share hpool.designated,
        ← List.map_congr_left fun w hw => (h.reports_count hpool hone w hw).2.2.1] at htotal
      simp only [List.sum_map_add] at htotal
      omega

/-- The assertion behind the exit condition holds. -/
theorem total_eq (h : Authoring exec pool data₀ fresh s) (hpool : Assigned exec pool)
    {c : Master.Counters} (hpc : s.master.pc = .collect c ∨ s.master.pc = .check c)
    (hres : Resolved exec pool fresh s) :
    c.total = c.executedLocal + c.executedWorkers + s.master.orphanPool.length := by
  obtain ⟨rfl, horphans⟩ := h.counters_eq hpool hpc
  have htotal := (h.resolved_count hpool hres).2
  rw [h.counted_eq, horphans]
  simp only [List.sum_map_add] at htotal
  dsimp only
  omega

end Authoring
end SonicChain
