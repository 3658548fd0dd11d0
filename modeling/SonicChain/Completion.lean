import SonicChain.FundedTransfers
import SonicChain.NodeProgress

/-! # Calls that return what they should

A call that no panic can stop can be completed from every state that the threads bring it
to, and what it then returns does not depend on how it got there: a validation returns the
state of the sequential executor (`validate_block_completes`), an authoring of funded
transfers the balances that they leave, and whoever validates the block gets the same data
(`funded_transfers_complete`).
-/

namespace SonicChain
open Transition StoreProgram

section
variable [Ed25519]

section
variable {exec : Executor} {s₀ s s' : System} {a : Action}

theorem Master.Pc.Returned.authored {pc : Master.Pc} (h : pc.Returned .author) :
    ∃ state block, pc = .authored state block := by
  cases pc <;> first | exact ⟨_, _, rfl⟩ | exact h.elim

theorem Master.Pc.Returned.validated {pc : Master.Pc} (h : pc.Returned .validate) :
    ∃ state, pc = .validated state := by
  cases pc <;> first | exact ⟨_, rfl⟩ | exact h.elim

theorem System.Called.thread {c : Call} (h : s₀.Called exec c s) (ha : a.OfThread)
    (hs : s.step exec a = some s') : s₀.Called exec c s' := by
  obtain ⟨as, has, hexec⟩ := h
  exact ⟨as ++ [a], List.forall_mem_append.mpr ⟨has, List.forall_mem_singleton.mpr ha⟩,
    exec_concat hexec hs⟩

theorem ValidateCall.thread {block : List Transaction} (h : ValidateCall exec s₀ block s)
    (ha : a.OfThread) (hs : s.step exec a = some s') : ValidateCall exec s₀ block s' :=
  ⟨h.ready, h.orphanPool, h.run.thread ha hs⟩

theorem AuthorCall.thread {txs : List Transaction} (h : AuthorCall exec s₀ txs s)
    (ha : a.OfThread) (hs : s.step exec a = some s') : AuthorCall exec s₀ txs s' :=
  ⟨h.ready, h.txPool, h.orphanPool, h.submitted, System.Called.thread h.run ha hs⟩

/-! ## Validation -/

/-- A validation in which no transaction panics can be completed. -/
theorem ValidateCall.completes {own : Key → Option ThreadId} {block : List Transaction}
    {data : Key → Value} (h : ValidateCall exec s₀ block s) (htagged : Tagged exec block)
    (hapart : Apart exec own block s₀.state.data)
    (hrun : runAll ((Pool.replayed s₀.master.orphanPool block).map Transaction.code) s₀.state.data =
      .ok data) : Leads (System.step exec) System.Acts (fun s' =>
        ∃ state, s'.master.pc = .validated state ∧ Revalidated exec s₀ block s' state) s := by
  have hsound := (h.sound htagged hapart hrun).2
  have hattentive := (h.life htagged).attentive h.ready h.orphanPool hsound
  refine ((h.leads htagged hsound hattentive).along (I := ValidateCall exec s₀ block)
    (fun s₁ a s₂ ha h₁ hs => h₁.thread ha.ofThread hs) h).mono ?_
  rintro s' ⟨h', hpanic | ⟨-, hreturned⟩⟩
  · exact absurd hpanic (h'.sound htagged hapart hrun).2
  · obtain ⟨state, hpc⟩ := hreturned.validated
    exact ⟨state, hpc, h'.returned htagged hapart hpc⟩

/-- **A validation can be completed with the sequential executor's state**, from every
state that any schedule has brought it to, where each worker's transactions touch keys of
its own and the sequential executor does not panic. -/
theorem validate_block_completes {own : Key → Option ThreadId} {block : List Transaction}
    (h : ValidateCall exec s₀ block s) (htagged : Tagged exec block)
    (hapart : Apart exec own block s₀.state.data) {self : SequentialExecutor}
    (hself : SequentialExecutor.validateBlock ⟨s₀.state⟩ (Pool.replayed s₀.master.orphanPool block) =
      .ok self) : Leads (System.step exec) System.Acts (fun s' =>
        ∃ state, s'.master.pc = .validated state ∧ state.stateEq self.state = true) s := by
  refine (h.completes htagged hapart (SequentialExecutor.runAll_of_validateBlock hself)).mono ?_
  rintro s' ⟨state, hpc, hreturned⟩
  exact ⟨state, hpc, hreturned.stateEq hself⟩

/-! ## Authoring -/

/-- An authoring in which no transaction panics can be completed. -/
theorem AuthorCall.completes {txs : List Transaction} {pool : Pool} (h : AuthorCall exec s₀ txs s)
    (hdist : Distributes exec txs pool)
    (hsound : ∀ s', AuthorCall exec s₀ txs s' → ¬ s'.DispatchPanicked exec) :
    Leads (System.step exec) System.Acts (fun s' => AuthorRun exec s₀ txs pool s' ∧
      ∃ state block, s'.master.pc = .authored state block) s := by
  have hrun := h.authorRun hdist (hsound s h)
  have horphans : ∀ tx ∈ s₀.master.orphanPool, tx.tag = .orphan := by
    intro tx htx
    rw [h.orphanPool] at htx
    cases htx
  have hattentive := hrun.life.attentive h.ready horphans (hsound s h)
  refine ((hrun.leads hattentive).along (I := AuthorCall exec s₀ txs)
    (fun s₁ a s₂ ha h₁ hs => h₁.thread ha.ofThread hs) h).mono ?_
  rintro s' ⟨h', hpanic | ⟨-, hreturned⟩⟩
  · exact absurd hpanic (hsound s' h')
  · exact ⟨h'.authorRun hdist (hsound s' h'), hreturned.authored⟩

/-- **Funded transfers can be authored and validated.**  From every state that any schedule
has brought an authoring of them to, it can be completed; each account then has what it had,
less what it has sent and with what was sent to it; and whoever has the initial data and the
same workers can, wherever a validation of the block has got to, complete it with the same
data. -/
theorem funded_transfers_complete {txs : List Transaction} {pool : Pool}
    (h : AuthorCall exec s₀ txs s) (hdist : Distributes exec txs pool)
    (huntainted : ∀ k, s₀.state.taint k = none) (hfunded : Funded txs s₀.state.data) :
    Leads (System.step exec) System.Acts (fun s' => ∃ state block,
      s'.master.pc = .authored state block ∧
      (∀ a, (balance state.data a).free.toNat =
          (balance s₀.state.data a).free.toNat - outgoing txs a + incoming txs a ∧
        (balance state.data a).reserved = (balance s₀.state.data a).reserved) ∧
      ∀ (exec' : Executor) (v₀ v : System), exec'.workers = exec.workers → v₀.Ready exec' →
        v₀.master.orphanPool = [] → v₀.state.data = s₀.state.data →
        v₀.Called exec' (.validateBlock block) v →
        Leads (System.step exec') System.Acts (fun v' =>
          ∃ state', v'.master.pc = .validated state' ∧ state'.data = state.data) v) s := by
  have hfresh : ∀ w ∈ exec.workers, s₀.Fresh w := fun w _ => System.fresh_of_untainted huntainted w
  have hsound : ∀ s', AuthorCall exec s₀ txs s' → ¬ s'.DispatchPanicked exec := fun s' h' =>
    h'.not_dispatchPanicked hdist hfresh (hfunded.transfersOf hdist)
  refine ((h.completes hdist hsound).along (I := AuthorCall exec s₀ txs)
    (fun s₁ a s₂ ha h₁ hs => h₁.thread ha.ofThread hs) h).mono ?_
  rintro s' ⟨h', hrun, state, block, hpc⟩
  have hpool := hdist.assigned h.submitted
  obtain ⟨s₁, tail, hreturned⟩ := hrun.returned hpc
  refine ⟨state, block, hpc, fun a => ?_, fun exec' v₀ v hworkers hready horphans hdata hcalled => ?_⟩
  · obtain ⟨hfree, hreserved⟩ := h'.settles hdist hfresh hfunded hpc a
    have henough := hfunded.enough a
    exact ⟨by omega, hreserved⟩
  · obtain ⟨hcall, htagged, hapart, hreplay⟩ :=
      hreturned.validateCall hpool hfresh hworkers hready horphans hdata hcalled
    refine (hcall.completes htagged hapart hreplay).mono ?_
    rintro v' ⟨state', hpc', hrevalidated⟩
    exact ⟨state', hpc', Except.ok.inj (hrevalidated.run.symm.trans hreplay)⟩

end
end

section
open Testing

namespace Testing

/-- Worker 1 is inside the validation of its transaction. -/
def revalidating : System :=
  (Transition.exec (System.step twoWorkers)
    (List.replicate 8 Action.master ++ List.replicate 5 (Action.worker 1))
    (spawned.begin twoWorkers (.validateBlock firstBlock))).get (by decide +kernel)

theorem revalidating_call : ValidateCall twoWorkers spawned firstBlock revalidating where
  ready := spawned_ready
  orphanPool := System.onlyOrphans rfl
  run := ⟨_, by decide, (Option.some_get _).symm⟩

/-- Worker 1 is inside the dispatch of the first payment. -/
def paying : System :=
  (Transition.exec (System.step twoWorkers)
    (List.replicate 11 Action.master ++ List.replicate 5 (Action.worker 1))
    (spawned.begin twoWorkers (.authorBlock twoPayments))).get (by decide +kernel)

theorem paying_call : AuthorCall twoWorkers spawned twoPayments paying where
  ready := spawned_ready
  txPool := rfl
  orphanPool := rfl
  submitted := ⟨by decide +kernel, by decide, by decide⟩
  run := ⟨_, by decide, (Option.some_get _).symm⟩

end Testing

theorem validate_block_completes_revalidating : (validatedState revalidating).isNone = true ∧
    ∃ self, SequentialExecutor.validateBlock ⟨spawned.state⟩ (Pool.replayed [] firstBlock) = .ok self ∧
      Leads (System.step twoWorkers) System.Acts (fun s' =>
        ∃ state, s'.master.pc = .validated state ∧ state.stateEq self.state = true) revalidating := by
  refine ⟨by decide +kernel, ?_⟩
  have hok : (SequentialExecutor.validateBlock ⟨spawned.state⟩
    (Pool.replayed [] firstBlock)).isOk = true := by decide +kernel
  cases hself : SequentialExecutor.validateBlock ⟨spawned.state⟩ (Pool.replayed [] firstBlock) with
  | ok self =>
    exact ⟨self, rfl,
      validate_block_completes revalidating_call firstBlock_tagged (firstBlock_apart _) hself⟩
  | error why => rw [hself] at hok; cases hok

theorem funded_transfers_complete_paying : (returned paying).isNone = true ∧
    ∃ as : List Action, (∀ a ∈ as, a.OfThread) ∧ ∃ s',
      Transition.exec (System.step twoWorkers) as paying = some s' ∧
      ∃ state block, s'.master.pc = .authored state block ∧
        (balance state.data alice).free.toNat = 10 - 5 + 0 ∧
        (balance state.data bob).free.toNat = 0 - 0 + 5 := by
  refine ⟨by decide +kernel, ?_⟩
  obtain ⟨as, has, s', hexec, state, block, hpc, hbalances, -⟩ :=
    (funded_transfers_complete paying_call twoPayments_distributes spawned_untainted
      twoPayments_funded).exec fun _ _ ha => ha.ofThread
  refine ⟨as, has, s', hexec, state, block, hpc, ?_, ?_⟩
  · rw [(hbalances alice).1]
    decide +kernel
  · rw [(hbalances bob).1]
    decide +kernel

end
end SonicChain
