import SonicChain.AuthoredBlock
import SonicChain.DispatchedCode
import SonicChain.KeyRecord
import SonicChain.Validation

/-! # The validated block

Nobody asks for permission in validation.  If what each worker's transactions touch alone
is its own (`Apart`), then the workers do not see each other: each leaves under its keys
what its transactions leave alone (`Reruns`), in whatever order the accesses come.
-/

namespace SonicChain
open Worker StoreProgram

section
variable [Ed25519]

/-! ## One worker -/

/-- The transaction that a worker is at, in validation, with what is left of its code. -/
def Worker.Pc.validating? : Pc → Option (Transaction × Storage (Except DispatchError Unit))
  | .validating tx code => some (tx, code)
  | _ => none

theorem Worker.Ready.not_dispatchPanicked {workers toOthers : List ThreadId} {pc : Pc}
    {inbox : List MessagePayload} {why : Panic} (h : Ready workers pc toOthers inbox) :
    pc ≠ .dispatchPanicked why := by
  rintro rfl
  cases h with
  | draining hpc => simp at hpc

theorem Worker.Ready.not_validating {workers toOthers : List ThreadId} {pc : Pc}
    {inbox : List MessagePayload} (h : Ready workers pc toOthers inbox) : pc.validating? = none := by
  cases h with
  | draining hpc => rcases hpc with rfl | rfl <;> rfl
  | _ => rfl

/-- What a worker has executed, and what is left of the transaction that it is at, does
under its keys what it does alone, from `data₀`. -/
inductive Reruns (data₀ : Key → Value) (mine : Key → Prop) (executed : List Transaction)
    (stored : List Key) (data : Key → Value) : Pc → Prop
  | outside {pc : Pc} {view : Key → Value} (hpc : pc.validating? = none)
    (hrun : runAll (executed.map Transaction.code) data₀ = .ok view)
    (hagree : ∀ k, mine k → data k = view k)
    (hstored : ∀ k, k ∈ stored ↔ k ∈ writtenAll (executed.map Transaction.code) data₀) :
    Reruns data₀ mine executed stored data pc
  | inside {tx : Transaction} {code : Storage (Except DispatchError Unit)} {view shadow : Key → Value}
    (hrun : runAll (executed.map Transaction.code) data₀ = .ok view)
    (hcode : tx.code.run view = code.run shadow) (htouched : ∀ k ∈ code.touched shadow, mine k)
    (hagree : ∀ k, mine k → data k = shadow k)
    (hstored : ∀ k, k ∈ stored ∨ k ∈ code.written shadow ↔
      k ∈ writtenAll (executed.map Transaction.code) data₀ ∨ k ∈ tx.code.written view) :
    Reruns data₀ mine executed stored data (.validating tx code)
  | panicked (why : Panic) : Reruns data₀ mine executed stored data (.dispatchPanicked why)

section
variable {workers : List ThreadId} {share executed : List Transaction} {w : ThreadId}
  {wk : Worker} {state : StateMap} {m : Move} {pc pc' : Pc} {pending reports : List MessagePayload}
  {data₀ data : Key → Value} {mine : Key → Prop} {stored : List Key}

theorem Reruns.of_outside (h : Reruns data₀ mine executed stored data pc)
    (hpc : pc.validating? = none) (hpanic : ∀ why, pc ≠ .dispatchPanicked why) :
    ∃ view, runAll (executed.map Transaction.code) data₀ = .ok view ∧
      (∀ k, mine k → data k = view k) ∧
      ∀ k, k ∈ stored ↔ k ∈ writtenAll (executed.map Transaction.code) data₀ := by
  cases h with
  | outside _ hrun hagree hstored => exact ⟨_, hrun, hagree, hstored⟩
  | inside => cases hpc
  | panicked why => exact absurd rfl (hpanic why)

theorem Reruns.of_inside {tx : Transaction} {code : Storage (Except DispatchError Unit)}
    (h : Reruns data₀ mine executed stored data (.validating tx code)) :
    ∃ view shadow, runAll (executed.map Transaction.code) data₀ = .ok view ∧
      tx.code.run view = code.run shadow ∧ (∀ k ∈ code.touched shadow, mine k) ∧
      (∀ k, mine k → data k = shadow k) ∧
      ∀ k, k ∈ stored ∨ k ∈ code.written shadow ↔
        k ∈ writtenAll (executed.map Transaction.code) data₀ ∨ k ∈ tx.code.written view := by
  cases h with
  | outside hpc => cases hpc
  | inside hrun hcode htouched hagree hstored =>
    exact ⟨_, _, hrun, hcode, htouched, hagree, hstored⟩

/-- The other workers leave this one's keys alone. -/
theorem Reruns.congr {data' : Key → Value} (h : Reruns data₀ mine executed stored data pc)
    (hdata : ∀ k, mine k → data' k = data k) : Reruns data₀ mine executed stored data' pc := by
  cases h with
  | outside hpc hrun hagree hstored =>
    exact .outside hpc hrun (fun k hk => (hdata k hk).trans (hagree k hk)) hstored
  | inside hrun hcode htouched hagree hstored =>
    exact .inside hrun hcode htouched (fun k hk => (hdata k hk).trans (hagree k hk)) hstored
  | panicked why => exact .panicked why

/-- **A step of a worker goes on with its transactions**, and touches keys of its own. -/
theorem Reruns.step (h : Reruns data₀ mine executed stored state.data wk.pc)
    (hvalidator : Validator workers share wk.pc wk.toOthers (wk.fromMaster ++ pending) executed reports)
    (hmine : ∀ k ∈ touchedAll (share.map Transaction.code) data₀, mine k)
    (hstep : Step w wk state m) :
    Reruns data₀ mine (executed ++ validatedBy w m.events) (stored ++ storedBy (some w) m.events)
        m.state.data m.worker.pc ∧
      ∀ k, ¬ mine k → m.state.data k = state.data k := by
  have hpanic := hstep.not_dispatchPanicked
  -- A step that does not concern a transaction.
  have aside : ∀ {m : Move}, m.state = state → validatedBy w m.events = [] →
      storedBy (some w) m.events = [] → wk.pc.validating? = none →
      m.worker.pc.validating? = none →
      Reruns data₀ mine (executed ++ validatedBy w m.events)
          (stored ++ storedBy (some w) m.events) m.state.data m.worker.pc ∧
        ∀ k, ¬ mine k → m.state.data k = state.data k := by
    intro m hstate hexecuted hstored hpc hpc'
    obtain ⟨view, hrun, hagree, hwritten⟩ := h.of_outside hpc hpanic
    rw [hstate, hexecuted, hstored, List.append_nil, List.append_nil]
    exact ⟨.outside hpc' hrun hagree hwritten, fun _ _ => rfl⟩
  cases hstep with
  | @takeForValidation tx rest hpc hq htag =>
    obtain ⟨view, hrun, hagree, hstored⟩ := h.of_outside (by rw [hpc]; rfl) hpanic
    rw [hpc] at hvalidator
    obtain ⟨-, -, txs, hshare, hinbox⟩ := hvalidator.of_runValidate
    rw [hq] at hinbox
    obtain ⟨txs', rfl, -⟩ := orders_eq_transaction hinbox
    change Reruns data₀ mine (executed ++ []) (stored ++ []) state.data (.validating tx tx.code) ∧ _
    rw [List.append_nil, List.append_nil]
    refine ⟨.inside hrun rfl (fun k hk => hmine k ?_) hagree fun k => or_congr_left (hstored k), fun _ _ => rfl⟩
    rw [hshare, List.map_append, touchedAll_append hrun]
    exact List.mem_append_right _ (List.mem_append_left _ hk)
  | @validateRead tx key next hpc =>
    rw [hpc] at h
    obtain ⟨view, shadow, hrun, hcode, htouched, hagree, hstored⟩ := h.of_inside
    have hkey : SequentialRuntime.read state key = shadow key := by
      rw [SequentialRuntime.read_eq]
      exact hagree key (htouched key (List.mem_cons_self ..))
    change Reruns data₀ mine (executed ++ []) (stored ++ []) state.data (.validating tx _) ∧ _
    rw [List.append_nil, List.append_nil, hkey]
    exact ⟨.inside hrun hcode (fun k hk => htouched k (List.mem_cons_of_mem _ hk)) hagree hstored,
      fun _ _ => rfl⟩
  | @validateWrite tx key value next hpc =>
    rw [hpc] at h
    obtain ⟨view, shadow, hrun, hcode, htouched, hagree, hstored⟩ := h.of_inside
    have hone : storedBy (some w) [.stored (some w) key] = [key] := by simp [storedBy, Event.storedBy]
    have hnone : validatedBy w [.stored (some w) key] = [] := rfl
    have hkey : mine key := htouched key (List.mem_cons_self ..)
    rw [hone, hnone, List.append_nil]
    refine ⟨@Reruns.inside _ _ _ _ _ _ _ _ _ (Function.update shadow key value) hrun hcode
      (fun k hk => htouched k (List.mem_cons_of_mem _ hk)) (fun k hk => ?_) fun k => ?_,
      fun k hk => ?_⟩
    · rw [SequentialRuntime.data_write]
      by_cases hkk : k = key
      · subst hkk; simp
      · rw [Function.update_of_ne hkk, Function.update_of_ne hkk]
        exact hagree k hk
    · rw [← hstored k, written, List.mem_append, List.mem_singleton, List.mem_cons]
      tauto
    · have hkk : k ≠ key := by rintro rfl; exact hk hkey
      rw [SequentialRuntime.data_write, Function.update_of_ne hkk]
  | @validateEnd tx result success hpc hresult =>
    rw [hpc] at h
    obtain ⟨view, shadow, hrun, hcode, -, hagree, hstored⟩ := h.of_inside
    have hone : validatedBy w [.validated w tx] = [tx] := by simp [validatedBy, Event.validatedBy]
    have hnone : storedBy (some w) [.validated w tx] = [] := rfl
    rw [hone, hnone, List.append_nil]
    refine ⟨.outside rfl ?_ hagree fun k => ?_, fun _ _ => rfl⟩
    · rw [List.map_append]
      exact runAll_concat hrun hcode
    · rw [List.map_append, show List.map Transaction.code [tx] = [tx.code] from rfl,
        writtenAll_concat hrun, List.mem_append]
      simpa [written] using hstored k
  | validateFault hpc => exact ⟨.panicked _, fun _ _ => rfl⟩
  | validateRefused hpc hresult =>
    rw [hpc] at hvalidator
    obtain ⟨success, hok⟩ := hvalidator.returns
    cases hok.symm.trans hresult
  | settle hres =>
    have hjob := hvalidator.not_authors.1
    rw [hres.executes.job_eq] at hjob
    cases hjob
  | access hpc | accessRecheck hpc | beginCommit hpc | commit hpc | commitPanic hpc | fault hpc =>
    have hjob := hvalidator.not_authors.1
    rw [hpc] at hjob
    cases hjob
  | unexpected hreceives =>
    refine aside rfl rfl rfl ?_ rfl
    cases hpc : wk.pc with
    | validating tx code => rw [hpc] at hreceives; exact hreceives.elim
    | _ => rfl
  | _ hpc => exact aside rfl rfl rfl (by rw [hpc]; rfl) rfl

end

/-! ## The workers together -/

/-- What each worker's transactions touch alone is its own. -/
def Apart (exec : Executor) (own : Key → Option ThreadId) (block : List Transaction)
    (data₀ : Key → Value) : Prop :=
  ∀ w ∈ exec.workers, ∀ k ∈ touchedAll ((Pool.share block w).map Transaction.code) data₀,
    own k = some w

/-- How far the workers have come, in a validation that began on `data₀`. -/
structure Rerunning (exec : Executor) (own : Key → Option ThreadId) (data₀ : Key → Value)
    (s : System) : Prop where
  workers : ∀ w ∈ exec.workers, Reruns data₀ (fun k => own k = some w) (validatedBy w s.log)
    (storedBy (some w) s.log) s.state.data (s.worker w).pc
  others : ∀ k, (∀ w ∈ exec.workers, own k ≠ some w) → s.state.data k = data₀ k

section
variable {exec : Executor} {own : Key → Option ThreadId} {data₀ : Key → Value}
  {block orphans : List Transaction} {s₀ s s' : System} {state : StateMap}

/-- **Each step goes on with the transactions of its worker**, and the others do not
notice. -/
theorem Rerunning.step (h : Rerunning exec own data₀ s) (hvalidation : Validation exec block orphans s)
    (hapart : Apart exec own block data₀) (hs : s.Threads exec s') : Rerunning exec own data₀ s' := by
  have hmaster : ∀ r tx code rest, s.master.pc ≠ .executingOrphan r tx code rest := by
    intro r tx code rest hpc
    obtain ⟨n, -, hpc' | hpc'⟩ := hvalidation.master <;> cases hpc'.symm.trans hpc
  cases hs with
  | @worker w m hw hstep =>
    have htags : ∀ tx ∈ Pool.share block w, tx.tag = .done w := fun tx htx =>
      of_decide_eq_true (List.mem_filter.mp htx).2
    have hmove := (hvalidation.workers w hw).step (hvalidation.fromOthers w hw) htags hstep
    obtain ⟨hself, hothers⟩ := (h.workers w hw).step (hvalidation.workers w hw) (hapart w hw) hstep
    have hlog : (s.applyMove w m).log = s.log ++ m.events := rfl
    have hstate : (s.applyMove w m).state = m.state := rfl
    refine ⟨fun v hv => ?_, fun k hk => ?_⟩
    · rw [hlog, hstate, validatedBy_append, storedBy_append]
      by_cases hvw : v = w
      · subst hvw
        rw [System.applyMove_pc_self]
        exact hself
      · rw [System.applyMove_pc_other hvw, validatedBy_of_other hmove.events hvw,
          storedBy_of_other hmove.events hvw, List.append_nil, List.append_nil]
        refine (h.workers v hv).congr fun k hk => hothers k fun hkw => hvw ?_
        exact Option.some.inj (hk.symm.trans hkw)
    · rw [hstate, hothers k (hk w hw)]
      exact h.others k hk
  | master hstep =>
    obtain ⟨hstate, hlog⟩ := System.masterStep_state hstep hmaster
    refine ⟨fun v hv => ?_, ?_⟩
    · rw [hlog, hstate, System.masterStep_pc hstep]
      exact h.workers v hv
    · rw [hstate]; exact h.others
  | @collect w _ hw hstep =>
    obtain ⟨hstate, -, payload, hlog⟩ := System.collect_eq hstep
    have hvalidated : ∀ v, validatedBy v s'.log = validatedBy v s.log := by
      intro v
      rw [hlog, validatedBy_append]
      exact List.append_nil _
    have hstored : ∀ v, storedBy (some v) s'.log = storedBy (some v) s.log := by
      intro v
      rw [hlog, storedBy_append]
      exact List.append_nil _
    refine ⟨fun v hv => ?_, ?_⟩
    · rw [hvalidated, hstored, hstate, System.collect_pc hstep]
      exact h.workers v hv
    · rw [hstate]; exact h.others

/-- It begins with nothing executed. -/
theorem Rerunning.begin (hready : s₀.Ready exec) :
    Rerunning exec own s₀.state.data (s₀.begin exec (.validateBlock block)) :=
  ⟨fun w hw => .outside (hready.workers w hw).not_validating rfl (fun _ _ => rfl) fun _ => Iff.rfl,
    fun _ _ => rfl⟩

/-- The transactions that the workers execute. -/
def Pool.executed (block : Pool) : List Transaction :=
  block.filter fun tx => decide (tx.tag ≠ .orphan)

theorem Tagged.executed (h : Tagged exec block) :
    ∀ tx ∈ Pool.executed block, ∃ w ∈ exec.workers, tx.tag = .done w := by
  intro tx htx
  obtain ⟨hmem, htag⟩ := List.mem_filter.mp htx
  exact (h tx hmem).resolve_left (of_decide_eq_true htag)

theorem Pool.share_executed (block : Pool) (w : ThreadId) :
    Pool.share (Pool.executed block) w = Pool.share block w := by
  rw [share, executed, share, List.filter_filter]
  refine List.filter_congr fun tx _ => ?_
  by_cases htag : tx.tag = .done w
  · simp [htag]
  · simp [htag]

/-- **When all have reported, the state is what the transactions leave in order.** -/
theorem Rerunning.run (h : Rerunning exec own data₀ s) (hreported : AllReported exec block orphans s)
    (htagged : Tagged exec block) (hapart : Apart exec own block data₀) :
    runAll ((Pool.executed block).map Transaction.code) data₀ = .ok s.state.data ∧
      ∀ k, k ∈ writtenAll ((Pool.executed block).map Transaction.code) data₀ ↔
        ∃ w ∈ exec.workers, k ∈ storedBy (some w) s.log := by
  refine Pool.run_merge htagged.executed (fun w hw => ?_) h.others
  have hidle : (s.worker w).pc.validating? = none ∧
      ∀ why, (s.worker w).pc ≠ .dispatchPanicked why := by
    rcases (hreported.idle hw).retired.cases.2 with ⟨-, hpc | hpc⟩ | ⟨-, hpc | hpc⟩ <;>
      rw [hpc] <;> exact ⟨rfl, fun _ h => by cases h⟩
  obtain ⟨view, hrun, hagree, hstored⟩ := (h.workers w hw).of_outside hidle.1 hidle.2
  rw [Pool.share_executed, ← hreported.executed hw]
  refine ⟨view, hrun, ?_, hagree, hstored⟩
  rw [hreported.executed hw]
  exact hapart w hw

/-- **No body of a call panics while the workers validate**, where none does in what
each of them executes alone. -/
theorem Rerunning.noFault (h : Rerunning exec own data₀ s) (hvalidation : Validation exec block orphans s)
    (hruns : ∀ w ∈ exec.workers, ∃ view,
      runAll ((Pool.share block w).map Transaction.code) data₀ = .ok view)
    (hsound : ¬ s.DispatchPanicked exec) : s.NoFault exec := by
  refine ⟨fun w hw hfault => ?_, fun hfault => ?_⟩
  · have hvalidator := hvalidation.workers w hw
    have hrerun := h.workers w hw
    cases hpc : (s.worker w).pc with
    | dispatchPanicked why => exact hsound (.inl ⟨w, hw, why, hpc⟩)
    | executing job code cache =>
      have hjob := hvalidator.not_authors.1
      rw [hpc] at hjob
      cases hjob
    | validating tx code =>
      rw [hpc] at hfault hvalidator hrerun
      cases code with
      | fault why =>
        obtain ⟨view, shadow, hrun, hcode, -⟩ := hrerun.of_inside
        obtain ⟨-, -, -, rest, hshare, -⟩ := hvalidator.of_validating
        obtain ⟨final, hfinal⟩ := hruns w hw
        rw [hshare, List.map_append, runAll_append hrun, List.map_cons, runAll, hcode] at hfinal
        cases hfinal
      | done result => exact hfault
      | read key next => exact hfault
      | write key value next => exact hfault
    | _ => rw [hpc] at hfault; exact hfault
  · obtain ⟨n, -, hpc | hpc⟩ := hvalidation.master <;> rw [hpc] at hfault <;> exact hfault

/-- Neither does one while the master executes the orphans. -/
theorem Closing.noFault_of_runs {return_to : Master.Return} {s₁ : System} {data : Key → Value}
    (h : Closing exec return_to s₁ s)
    (hruns : runAll (s₁.master.orphanPool.map Transaction.code) s₁.state.data = .ok data) :
    s.NoFault exec := by
  refine ⟨fun w hw hfault => ?_, fun hfault => ?_⟩
  · rcases (h.workers w hw).retired.cases.2 with ⟨-, hpc | hpc⟩ | ⟨-, hpc | hpc⟩ <;>
      rw [hpc] at hfault <;> exact hfault
  · obtain ⟨tail, -, -, hreplays | hdone⟩ := h.progress
    · cases hpc : s.master.pc with
      | executingOrphan r tx code rest =>
        rw [hpc] at hreplays hfault
        obtain ⟨-, horphans, data', hrun, hcode, -⟩ := hreplays
        cases code with
        | fault why =>
          rw [← horphans, List.map_append, runAll_append hrun, List.map_cons, runAll, hcode] at hruns
          cases hruns
        | done result => exact hfault
        | read key next => exact hfault
        | write key value next => exact hfault
      | dispatchPanicked why => rw [hpc] at hreplays; exact hreplays
      | _ => rw [hpc] at hfault; exact hfault
    · rw [hdone.pc] at hfault
      cases return_to <;> exact hfault

/-! ## What is returned -/

/-- The transactions that a call of `validate_block` executes: what the workers execute,
and then the orphans, those of the blocks before first. -/
def Pool.replayed (leftover : List Transaction) (block : Pool) : List Transaction :=
  executed block ++ (leftover ++ Pool.orphans block)

/-- A block that lists its orphans last. -/
theorem Pool.executed_append {front orphans : Pool} (hfront : ∀ tx ∈ front, tx.tag ≠ .orphan)
    (horphans : ∀ tx ∈ orphans, tx.tag = .orphan) :
    Pool.executed (front ++ orphans) = front ∧ Pool.orphans (front ++ orphans) = orphans := by
  constructor
  · rw [executed, List.filter_append,
      List.filter_eq_self.mpr fun tx htx => decide_eq_true (hfront tx htx),
      List.filter_eq_nil_iff.mpr fun tx htx => by simp [horphans tx htx], List.append_nil]
  · rw [Pool.orphans, List.filter_append,
      List.filter_eq_nil_iff.mpr fun tx htx => by simp [hfront tx htx],
      List.filter_eq_self.mpr fun tx htx => decide_eq_true (horphans tx htx), List.nil_append]

/-- What a completed call of `validate_block` has executed, and what it returns. -/
structure Revalidated (exec : Executor) (s₀ : System) (block : List Transaction) (s : System)
    (state : StateMap) : Prop where
  ready : s.Ready exec
  orphanPool : s.master.orphanPool = s₀.master.orphanPool ++ Pool.orphans block
  validated : ∀ w ∈ exec.workers, validatedBy w s.log = Pool.share block w
  orphans : orphansExecuted s.log = s₀.master.orphanPool ++ Pool.orphans block
  state_eq : state = s.state
  run : runAll ((Pool.replayed s₀.master.orphanPool block).map Transaction.code) s₀.state.data =
    .ok state.data
  keys : ∀ k, k ∈ state ↔ k ∈ s₀.state ∨
    k ∈ writtenAll ((Pool.replayed s₀.master.orphanPool block).map Transaction.code) s₀.state.data

/-- What is stored, is so by a worker before the orphan phase, and by the master in it. -/
theorem stored_iff {before tail : List Event}
    (hbefore : ∀ t key, .stored t key ∈ before → ∃ w ∈ exec.workers, t = some w)
    (htail : ∀ e ∈ tail, e.OfOrphans) (k : Key) : (∃ t, k ∈ storedBy t (before ++ tail)) ↔
      (∃ w ∈ exec.workers, k ∈ storedBy (some w) before) ∨ k ∈ storedBy none tail := by
  simp only [mem_storedBy, List.mem_append]
  constructor
  · rintro ⟨t, he | he⟩
    · obtain ⟨w, hw, rfl⟩ := hbefore t k he
      exact .inl ⟨w, hw, he⟩
    · have hof := htail _ he
      cases t with
      | none => exact .inr he
      | some w => exact hof.elim
  · rintro (⟨w, -, he⟩ | he)
    · exact ⟨some w, .inl he⟩
    · exact ⟨none, .inr he⟩

section
variable (h : ValidateCall exec s₀ block s) (htagged : Tagged exec block)
  (hapart : Apart exec own block s₀.state.data)
include h htagged hapart

theorem ValidateCall.phase : ValidationPhase exec block (s₀.master.orphanPool ++ Pool.orphans block)
    (Rerunning exec own s₀.state.data) s ∨ s.MasterPanicked :=
  h.phase_of htagged (.begin h.ready) fun _ _ hvalidation hk hs => hk.step hvalidation hapart hs

/-- **No body of a call panics in validation**, where none does in the sequential
executor. -/
theorem ValidateCall.sound {data : Key → Value}
    (hrun : runAll ((Pool.replayed s₀.master.orphanPool block).map Transaction.code) s₀.state.data =
      .ok data) :
    ValidationPhase exec block (s₀.master.orphanPool ++ Pool.orphans block)
      (Rerunning exec own s₀.state.data) s ∧ ¬ s.DispatchPanicked exec := by
  have hfront : ∃ front, runAll ((Pool.executed block).map Transaction.code) s₀.state.data =
      .ok front := by
    rw [Pool.replayed, List.map_append] at hrun
    exact runAll_of_append hrun
  have hruns : ∀ w ∈ exec.workers, ∃ view,
      runAll ((Pool.share block w).map Transaction.code) s₀.state.data = .ok view := by
    obtain ⟨front, hfront⟩ := hfront
    intro w hw
    rw [← Pool.share_executed]
    exact Pool.run_share htagged.executed (fun v hv => by rw [Pool.share_executed]; exact hapart v hv)
      hfront w
  have hnoFault : ∀ s, ValidationPhase exec block (s₀.master.orphanPool ++ Pool.orphans block)
      (Rerunning exec own s₀.state.data) s → ¬ s.DispatchPanicked exec → s.NoFault exec := by
    rintro s (⟨hvalidation, hk⟩ | ⟨s₁, ⟨hreported, hk⟩, hclosing⟩) hsound
    · exact hk.noFault hvalidation hruns hsound
    · rw [Pool.replayed, List.map_append, runAll_append (hk.run hreported htagged hapart).1,
        ← hreported.orphanPool] at hrun
      exact hclosing.noFault_of_runs hrun
  obtain ⟨as, has, hexec⟩ := h.run
  refine Transition.exec_invariant_of
    (I := fun s => ValidationPhase exec block (s₀.master.orphanPool ++ Pool.orphans block)
      (Rerunning exec own s₀.state.data) s ∧ ¬ s.DispatchPanicked exec)
    (fun s a s' ha hi hs => ?_) has hexec ⟨.inl ⟨.begin h.ready htagged, .begin h.ready⟩, ?_⟩
  · have hthreads := System.threads_of_step ha hs
    have hsound := (hnoFault s hi.1 hi.2).step hthreads
    refine ⟨(hi.1.step h.tagged_orphans (fun _ _ hvalidation hk hs => hk.step hvalidation hapart hs)
      hthreads).resolve_right fun hmaster => hsound (.inr hmaster), hsound⟩
  · rintro (⟨w, hw, why, hpc⟩ | ⟨-, why, hpc⟩)
    · exact (h.ready.workers w hw).not_dispatchPanicked hpc
    · cases hpc

/-- **What `validate_block` does**, where the workers' transactions keep to keys of their
own. -/
theorem ValidateCall.returned (hpc : s.master.pc = .validated state) :
    Revalidated exec s₀ block s state := by
  rcases h.phase htagged hapart with
    (⟨hvalidation, -⟩ | ⟨s₁, ⟨hreported, hrerun⟩, hclosing⟩) | ⟨-, why, hpanic⟩
  · obtain ⟨n, -, hpc' | hpc'⟩ := hvalidation.master <;> cases hpc.symm.trans hpc'
  · obtain ⟨as, has, hexec⟩ := h.run
    obtain ⟨⟨events, hevents, hrecorded⟩, htainted⟩ := System.recorded_of_run has hexec
    obtain ⟨tail, hlog, htail, hreplays | hdone⟩ := hclosing.progress
    · rw [hpc] at hreplays
      exact hreplays.elim
    · have hreturned := hdone.pc
      rw [hpc, System.finish, System.setMaster] at hreturned
      obtain rfl := Master.Pc.validated.inj hreturned
      obtain ⟨hrun, hwritten⟩ := hrerun.run hreported htagged hapart
      have horphans := hreported.orphanPool
      have hevents : s.log = events := hevents
      have hnone : ∀ {A : Type} (f : Event → Option A), (∀ e : Event, e.OfOrphans → f e = none) →
          tail.filterMap f = [] := fun f hf => filterMap_of_ofOrphans hf htail
      refine ⟨hclosing.ready hdone.todo (by rw [hpc]; rfl) fun k o hk => ?_, ?_, fun w hw => ?_, ?_,
        rfl, ?_, fun k => ?_⟩
      · exact (htainted k o hk).elim (h.ready.taints k o) id
      · rw [hclosing.orphanPool, horphans]
      · have htail' : validatedBy w tail = [] := hnone _ fun e he => by
          cases e <;> first | rfl | exact he.elim
        rw [hlog, validatedBy_append, htail', List.append_nil, hreported.executed hw]
      · have hbefore : orphansExecuted s₁.log = [] := by
          refine List.filterMap_eq_nil_iff.mpr fun e he => ?_
          obtain ⟨w, -, hof⟩ := hreported.validation.record e he
          cases e <;> first | rfl | exact hof.elim
        rw [hlog, orphansExecuted_append, hbefore, List.nil_append, hdone.executed, horphans]
      · rw [Pool.replayed, List.map_append, runAll_append hrun, ← horphans]
        exact hdone.run
      · have hcreated : createdKeys s.log = [] := by
          refine List.filterMap_eq_nil_iff.mpr fun e he => ?_
          rw [hlog, List.mem_append] at he
          rcases he with he | he
          · obtain ⟨w, -, hof⟩ := hreported.validation.record e he
            cases e <;> first | rfl | exact hof.elim
          · have hof := htail e he
            cases e <;> first | rfl | exact hof.elim
        rw [hrecorded.keys k, ← hevents, hcreated, Pool.replayed, List.map_append, writtenAll_append hrun,
          List.mem_append, hwritten k, ← horphans, ← hdone.stored k]
        refine or_congr_right ?_
        simp only [List.not_mem_nil, false_or]
        rw [hlog]
        refine stored_iff (fun t key he => ?_) htail k
        obtain ⟨w, hw, hof⟩ := hreported.validation.record _ he
        exact ⟨w, hw, hof⟩
  · cases hpc.symm.trans hpanic

end

/-- No thread has panicked, other than in the body of a call. -/
structure System.Orderly (exec : Executor) (s : System) : Prop where
  workers : ∀ w ∈ exec.workers, ∀ why, (s.worker w).pc ≠ .panicked why
  master : ∀ why, s.master.pc ≠ .panicked why

theorem Closing.orderly {return_to : Master.Return} {s₁ : System} (h : Closing exec return_to s₁ s) :
    s.Orderly exec := by
  refine ⟨fun w hw why hpc => ?_, fun why hpc => ?_⟩
  · rcases (h.workers w hw).retired.cases.2 with ⟨-, hpc' | hpc'⟩ | ⟨-, hpc' | hpc'⟩ <;>
      cases hpc.symm.trans hpc'
  · obtain ⟨tail, -, -, hreplays | hdone⟩ := h.progress
    · rw [hpc] at hreplays
      exact hreplays
    · rw [hdone.pc] at hpc
      cases return_to <;> cases hpc

theorem Validator.not_panicked {workers toOthers : List ThreadId} {share executed : List Transaction}
    {pc : Pc} {inbox reports : List MessagePayload}
    (h : Validator workers share pc toOthers inbox executed reports) (why : Panic) :
    pc ≠ .panicked why := by
  rintro rfl
  cases h with
  | ready hready => cases hready with | draining hpc => simp at hpc
  | reported hpc => simp at hpc

theorem ValidationPhase.orderly {K : System → Prop} (h : ValidationPhase exec block orphans K s) :
    s.Orderly exec := by
  rcases h with ⟨hvalidation, -⟩ | ⟨s₁, -, hclosing⟩
  · refine ⟨fun w hw why => (hvalidation.workers w hw).not_panicked why, fun why hpc => ?_⟩
    obtain ⟨n, -, hpc' | hpc'⟩ := hvalidation.master <;> cases hpc.symm.trans hpc'
  · exact hclosing.orderly

/-- Where the sequential executor does not panic, no transaction does. -/
theorem SequentialExecutor.runAll_of_validateBlock {self self' : SequentialExecutor}
    {block : List Transaction} (h : validateBlock self block = .ok self') :
    runAll (block.map Transaction.code) self.state.data = .ok self'.state.data := by
  rw [validateBlock] at h
  cases happly : applyTransaction block self.state with
  | ok state =>
    rw [happly] at h
    obtain rfl := Except.ok.inj h
    exact runAll_of_applyTransaction happly
  | error why =>
    rw [happly] at h
    cases h

/-- The state returned is the sequential executor's. -/
theorem Revalidated.stateEq (h : Revalidated exec s₀ block s state) {self : SequentialExecutor}
    (hself : SequentialExecutor.validateBlock ⟨s₀.state⟩ (Pool.replayed s₀.master.orphanPool block) =
      .ok self) : state.stateEq self.state = true := by
  obtain ⟨seqState, hseq, hdata, hkeys⟩ := SequentialExecutor.applyTransaction_of_ok h.run
  rw [SequentialExecutor.validateBlock, hseq] at hself
  obtain rfl := Except.ok.inj hself
  refine StateType.stateEq_iff_data.mpr ⟨fun k => ?_, hdata.symm⟩
  rw [h.keys k, hkeys k]

/-- **Validation is schedule-independent.**  Where each worker's transactions, executed
alone, touch keys of its own, and the sequential executor does not panic, no thread
panics in any schedule, each worker executes its transactions in order, the master the
orphans, and the state is the sequential executor's. -/
theorem validate_block_any_schedule (h : ValidateCall exec s₀ block s) (htagged : Tagged exec block)
    (hapart : Apart exec own block s₀.state.data) {self : SequentialExecutor}
    (hself : SequentialExecutor.validateBlock ⟨s₀.state⟩ (Pool.replayed s₀.master.orphanPool block) =
      .ok self) :
    s.Orderly exec ∧ ¬ s.DispatchPanicked exec ∧
    ∀ state, s.master.pc = .validated state →
      state.stateEq self.state = true ∧
      (∀ w ∈ exec.workers, validatedBy w s.log = Pool.share block w) ∧
      orphansExecuted s.log = s₀.master.orphanPool ++ Pool.orphans block := by
  obtain ⟨hphase, hsound⟩ :=
    h.sound htagged hapart (SequentialExecutor.runAll_of_validateBlock hself)
  refine ⟨hphase.orderly, hsound, fun state hpc => ?_⟩
  have hreturned := h.returned htagged hapart hpc
  exact ⟨hreturned.stateEq hself, hreturned.validated, hreturned.orphans⟩

end
end

section
open Testing

namespace Testing

/-- What a call of `validate_block` that has returned has returned. -/
def validatedState (s : System) : Option StateMap :=
  match s.master.pc with
  | .validated state => some state
  | _ => none

theorem pc_of_validatedState {s : System} {state : StateMap} (h : validatedState s = some state) :
    s.master.pc = .validated state := by
  unfold validatedState at h
  split at h
  · rename_i state' hpc
    rw [hpc, Option.some.inj h]
  · cases h

/-- Alice pays bob, dave himself, and bob's transaction was an orphan. -/
def firstBlock : Pool :=
  [{ signed 7 (.balances (.transfer bob 4)) alice with tag := .done 1 },
    { signed 9 (.balances (.transfer dave 0)) dave with tag := .done 2 },
    { signed 8 (.balances (.transfer alice 1)) bob with tag := .orphan }]

def secondBlock : Pool := [{ signed 10 (.balances (.transfer bob 1)) alice with tag := .done 2 }]

theorem firstBlock_tagged : Tagged twoWorkers firstBlock := by
  intro tx htx
  rcases List.mem_cons.mp htx with rfl | htx
  · exact .inr ⟨1, by decide, rfl⟩
  rcases List.mem_cons.mp htx with rfl | htx
  · exact .inr ⟨2, by decide, rfl⟩
  · obtain rfl := List.mem_singleton.mp htx
    exact .inl rfl

theorem secondBlock_tagged : Tagged twoWorkers secondBlock := by
  intro tx htx
  obtain rfl := List.mem_singleton.mp htx
  exact .inr ⟨2, by decide, rfl⟩

/-- Dave's balance is worker 2's, and the others are worker 1's. -/
def firstOwner (k : Key) : Option ThreadId := if k = balanceOf.keyFor dave then some 2 else some 1

theorem firstOwner_eq : firstOwner (balanceOf.keyFor alice) = some 1 ∧
    firstOwner (balanceOf.keyFor bob) = some 1 := by
  decide +kernel

/-- A transaction touches what is in its access list. -/
theorem mem_validate_of_touched (tx : Transaction) (hcall : tx.function.AccessComplete)
    {data : Key → Value} {k : Key} (hk : k ∈ touchedAll ([tx].map Transaction.code) data) :
    k ∈ tx.function.validate tx.signature.1 := by
  have hone : touchedAll ([tx].map Transaction.code) data = tx.code.touched data := by
    rw [List.map_singleton, touchedAll]
    cases tx.code.run data <;> simp [touchedAll]
  rw [hone] at hk
  exact (OuterCall.within_dispatch _ hcall).touched data k hk

theorem firstBlock_apart (data : Key → Value) : Apart twoWorkers firstOwner firstBlock data := by
  intro w hw k hk
  rcases List.mem_cons.mp hw with rfl | hw
  · have hkey := mem_validate_of_touched firstBlock[0] trivial hk
    rcases List.mem_cons.mp hkey with rfl | hkey
    · exact firstOwner_eq.1
    · obtain rfl := List.mem_singleton.mp hkey
      exact firstOwner_eq.2
  · obtain rfl := List.mem_singleton.mp hw
    have hkey := mem_validate_of_touched firstBlock[1] trivial hk
    rcases List.mem_cons.mp hkey with rfl | hkey
    · exact if_pos rfl
    · obtain rfl := List.mem_singleton.mp hkey
      exact if_pos rfl

/-- Only worker 2 has something to execute. -/
theorem secondBlock_apart (data : Key → Value) : Apart twoWorkers (fun _ => some 2) secondBlock data := by
  intro w hw k hk
  rcases List.mem_cons.mp hw with rfl | hw
  · cases hk
  · obtain rfl := List.mem_singleton.mp hw
    rfl

/-- The workers take turns. -/
def firstSchedule : List Action :=
  List.replicate 9 Action.master ++
    (List.replicate 11 [Action.worker 1, Action.worker 2]).flatten ++
    [Action.collect 1, .master, .collect 2] ++ List.replicate 8 Action.master

def firstValidated : System :=
  (Transition.exec (System.step twoWorkers) firstSchedule
    (spawned.begin twoWorkers (.validateBlock firstBlock))).get (by decide +kernel)

def secondSchedule : List Action :=
  List.replicate 7 Action.master ++ List.replicate 4 (Action.worker 1) ++
    List.replicate 10 (Action.worker 2) ++
    [Action.collect 1, .master, .collect 2] ++ List.replicate 8 Action.master

def secondValidated : System :=
  (Transition.exec (System.step twoWorkers) secondSchedule
    (firstValidated.begin twoWorkers (.validateBlock secondBlock))).get (by decide +kernel)

theorem firstValidated_called : spawned.Called twoWorkers (.validateBlock firstBlock) firstValidated :=
  ⟨firstSchedule, by decide, (Option.some_get _).symm⟩

theorem secondValidated_called :
    firstValidated.Called twoWorkers (.validateBlock secondBlock) secondValidated :=
  ⟨secondSchedule, by decide, (Option.some_get _).symm⟩

def secondState : StateMap := (validatedState secondValidated).get (by decide +kernel)

theorem secondValidated_pc : secondValidated.master.pc = .validated secondState :=
  pc_of_validatedState (Option.some_get _).symm

def firstState : StateMap := (validatedState firstValidated).get (by decide +kernel)

theorem firstValidated_pc : firstValidated.master.pc = .validated firstState :=
  pc_of_validatedState (Option.some_get _).symm

end Testing

theorem validate_block_any_schedule_orphan :
    firstValidated.Orderly twoWorkers ∧ ¬ firstValidated.DispatchPanicked twoWorkers ∧
    ∃ self, SequentialExecutor.validateBlock ⟨spawned.state⟩ (Pool.replayed [] firstBlock) = .ok self ∧
      ∀ state, firstValidated.master.pc = .validated state →
        state.stateEq self.state = true ∧
        (∀ w ∈ twoWorkers.workers, validatedBy w firstValidated.log = Pool.share firstBlock w) ∧
        orphansExecuted firstValidated.log = [] ++ Pool.orphans firstBlock := by
  obtain ⟨self, hself⟩ : ∃ self, SequentialExecutor.validateBlock ⟨spawned.state⟩
      (Pool.replayed [] firstBlock) = .ok self := by
    have hok : (SequentialExecutor.validateBlock ⟨spawned.state⟩
      (Pool.replayed [] firstBlock)).isOk = true := by decide +kernel
    cases h : SequentialExecutor.validateBlock ⟨spawned.state⟩ (Pool.replayed [] firstBlock) with
    | ok self => exact ⟨self, rfl⟩
    | error why => rw [h] at hok; cases hok
  have hcall : ValidateCall twoWorkers spawned firstBlock firstValidated :=
    ⟨spawned_ready, System.onlyOrphans rfl, firstValidated_called⟩
  obtain ⟨horderly, hsound, hreturns⟩ :=
    validate_block_any_schedule hcall firstBlock_tagged (firstBlock_apart _) hself
  exact ⟨horderly, hsound, self, hself, hreturns⟩

end

end SonicChain
