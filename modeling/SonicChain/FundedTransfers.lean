import SonicChain.DispatchedCode
import SonicChain.Refusals
import SonicChain.Transfers

/-! # Authoring funded transfers

Transfers that are funded panic nowhere, whatever the schedule
(`AuthorCall.not_dispatchPanicked`): what a worker has left of a transfer gives way
where it is refused, and alone it would not panic.  So a run of `author_block` on
them leaves what they leave one after the other, and that does not depend on the
order.
-/

namespace SonicChain
open Worker StoreProgram ConcurrentRuntime

section
variable [Ed25519]

/-! ## The code of a transfer -/

/-- What is left of a transfer, inside the dispatch by worker `w`: it gives way where
it is refused a key that the worker does not hold, and else panics only where a
balance overflows. -/
def PaysOut (w : ThreadId) (state : StateMap) (code : Storage (Except DispatchError Unit)) : Prop :=
  FaultsIn (· = .addOverflow "free") code ∧ ∃ held : List Key, (∀ k ∈ held, Owns w state k) ∧
    Yields (fun _ owner e => DispatchError.Reports owner e) (fun _ _ => True) code held

theorem Transaction.IsTransfer.paysOut {tx : Transaction} (h : tx.IsTransfer) (w : ThreadId)
    (state : StateMap) : PaysOut w state tx.code := by
  obtain ⟨dest, value, hfunction⟩ := h
  rw [Transaction.code, hfunction]
  refine ⟨Balances.faultsIn_transfer tx.signature.1 dest value, [],
    fun _ hk => absurd hk List.not_mem_nil, ?_⟩
  refine (Balances.yields_transfer tx.signature.1 dest value).mono fun held owner e he => ?_
  rcases he with rfl | ⟨rfl, -⟩
  · exact ⟨true, rfl⟩
  · exact ⟨false, rfl⟩

omit [Ed25519] in
theorem paysOut_done (w : ThreadId) (state : StateMap) (result : Except DispatchError Unit) :
    PaysOut w state (.done result) := by
  refine ⟨trivial, [], fun _ hk => absurd hk List.not_mem_nil, ?_⟩
  cases result <;> trivial

omit [Ed25519] in
/-- **The answers to a worker do not change that.** -/
theorem answers_paysOut (w : ThreadId) : Answers w (fun _ => True) (PaysOut w) := by
  refine ⟨?_, fun _ _ _ => trivial, fun htouch ⟨hfaults, held, hheld, hyields⟩ =>
    ⟨hfaults, held, fun k hk => htouch.owns (hheld k hk), hyields⟩⟩
  rintro state state' code cache key outcome - ⟨hfaults, held, hheld, hyields⟩ hkey hanswer
  refine ⟨trivial, ?_⟩
  -- A key that is granted is held from then on.
  have hgrown : ∀ {value : Value}, outcome = .ok value → ∀ k ∈ key :: held, Owns w state' k := by
    rintro value rfl k hk
    rcases List.mem_cons.mp hk with rfl | hk
    · exact hanswer.owns
    · exact hanswer.touch.owns (hheld k hk)
  have hforeign : ∀ {owner : ThreadId}, outcome = .error owner → key ∉ held := by
    rintro owner rfl hmem
    cases hanswer with
    | refused howner hne => exact hne (Option.some.inj (howner.symm.trans (hheld key hmem)))
  cases code with
  | done result => cases hkey
  | fault why => cases hkey
  | read k next =>
    obtain rfl := Option.some.inj hkey
    cases outcome with
    | ok value => exact ⟨hfaults value, k :: held, hgrown rfl, hyields.2 value⟩
    | error owner =>
      obtain ⟨e, hnext, -⟩ := hyields.1 (hforeign rfl) owner
      rw [answer, hnext]
      exact paysOut_done w state' _
  | write k value next =>
    obtain rfl := Option.some.inj hkey
    cases outcome with
    | ok _ => exact ⟨hfaults (), k :: held, hgrown rfl, hyields.2 ()⟩
    | error owner =>
      obtain ⟨e, hnext, -⟩ := hyields.1 (hforeign rfl) owner
      rw [answer, hnext]
      exact paysOut_done w state' _

/-! ## No panics -/

section
variable {exec : Executor} {pool : Pool} {data₀ : Key → Value} {fresh : ThreadId → Prop}
  {s s₁ s' : System} {w : ThreadId} {tx : Transaction}

/-- The transactions of the pool are transfers, and the money fits. -/
structure Transfers (pool : Pool) (d : Data) : Prop where
  transfers : ∀ tx ∈ pool, tx.IsTransfer
  fits : totalMoney d ≤ U128.max

theorem Transfers.passed (h : Transfers pool data₀) (htx : Passed pool w tx) : tx.IsTransfer := by
  obtain ⟨t, ht, -, rfl⟩ := htx
  exact (h.transfers t ht).of_content rfl

theorem Transfers.share (h : Transfers pool data₀) (htx : tx ∈ pool.share w) : tx.IsTransfer :=
  h.transfers tx (List.mem_filter.mp htx).1

/-- While the workers execute transfers, no thread is about to panic. -/
theorem Authoring.noFault (h : Authoring exec pool data₀ fresh s) (hpool : Transfers pool data₀)
    (hcodes : ∀ w ∈ exec.workers, (s.worker w).pc.Code (PaysOut w s.state)) : s.NoFault exec := by
  refine ⟨fun w hw hfault => ?_, fun hfault => ?_⟩
  · have hinv := h.workers w hw
    have hstand := hinv.stand
    have hfaithful := hinv.faithful
    have hcode := hcodes w hw
    cases hpc : (s.worker w).pc with
    | executing job code cache =>
      rw [hpc] at hfault hstand hfaithful hcode
      cases code with
      | fault why =>
        obtain ⟨view, hrun, -, hfaithful⟩ := hfaithful
        cases hfaithful with
        | outside hjob => cases hjob
        | executing hsync hstored htracks hstop =>
          have hjob : job.tx.IsTransfer := by
            obtain ⟨-, ⟨-, htx, -⟩ | ⟨e, f, early, before, rest, own, -, -, hshare, -⟩ |
              ⟨-, htx, -⟩⟩ := hstand.of_executes (.executing ..)
            · exact hpool.passed htx
            · exact hpool.share (w := w) (by rw [hshare]; simp)
            · exact hpool.passed htx
          refine hjob.run_ne_error ?_ htracks.run_of_fault
          rw [totalMoney_of_runAll hpool.fits hrun]
          exact hpool.fits
        | refused _ _ _ _ _ hrefused =>
          obtain ⟨text, hexpect⟩ := hrefused
          exact absurd (hcode.1.symm.trans hexpect) nofun
      | done result => exact hfault
      | read k next => exact hfault
      | write k value next => exact hfault
    | validating tx code => exact hstand.not_validates (by rw [hpc]; trivial)
    | dispatchPanicked why => exact hstand.not_dispatchPanicked why hpc
    | _ => rw [hpc] at hfault; exact hfault
  · have hmaster := h.master
    rw [MasterInv] at hmaster
    cases hpc : s.master.pc <;> rw [hpc] at hmaster hfault <;> first
      | exact hmaster.elim
      | exact hfault.elim

/-- Neither is one while the master executes the orphans. -/
theorem Closing.noFault (h : Closing exec .author s₁ s) (hexited : Exited exec pool data₀ fresh s₁)
    (hassigned : Assigned exec pool) (hfresh : ∀ w ∈ exec.workers, fresh w)
    (hpool : Transfers pool data₀) : s.NoFault exec := by
  refine ⟨fun w hw hfault => ?_, fun hfault => ?_⟩
  · rcases (h.workers w hw).retired.cases.2 with ⟨-, hpc | hpc⟩ | ⟨-, hpc | hpc⟩ <;>
      rw [hpc] at hfault <;> exact hfault
  · obtain ⟨tail, -, -, hreplays | hdone⟩ := h.progress
    · cases hpc : s.master.pc with
      | executingOrphan r tx code rest =>
        rw [hpc] at hreplays hfault
        obtain ⟨-, horphans, data, hrun, hcode, -⟩ := hreplays
        cases code with
        | fault why =>
          have hmem : tx ∈ s₁.master.orphanPool := by rw [← horphans]; simp
          have htx : tx.IsTransfer := by
            obtain ⟨t, ht, hcontent⟩ := List.mem_map.mp (hexited.collected.content.subset
              (List.mem_map_of_mem (List.mem_append_right s₁.master.txPool hmem)))
            exact (hpool.transfers t ht).of_content hcontent.symm
          have hbefore := totalMoney_of_runAll hpool.fits (hexited.run_txPool hassigned hfresh).1
          have hfits : totalMoney s₁.state.data ≤ U128.max := hbefore ▸ hpool.fits
          refine htx.run_ne_error ?_ hcode
          rw [totalMoney_of_runAll hfits hrun]
          exact hfits
        | done result => exact hfault
        | read k next => exact hfault
        | write k value next => exact hfault
      | dispatchPanicked why => rw [hpc] at hreplays; exact hreplays
      | _ => rw [hpc] at hfault; exact hfault
    · rw [hdone.pc] at hfault
      exact hfault

end

/-- **Funded transfers panic nowhere**, in whatever order the threads take their
steps. -/
theorem AuthorCall.not_dispatchPanicked {exec : Executor} {s₀ s : System} {txs : List Transaction}
    {pool : Pool} (h : AuthorCall exec s₀ txs s) (hdist : Distributes exec txs pool)
    (hfresh : ∀ w ∈ exec.workers, s₀.Fresh w) (hpool : Transfers pool s₀.state.data) :
    ¬ s.DispatchPanicked exec := by
  have hassigned := hdist.assigned h.submitted
  have hbegin := Authoring.begin h.ready h.submitted h.txPool h.orphanPool hdist
  obtain ⟨as, has, hexec⟩ := h.run
  have hinv := Transition.exec_invariant_of
    (I := fun s => (Authoring exec pool s₀.state.data s₀.Fresh s ∧
        ∀ w ∈ exec.workers, (s.worker w).pc.Code (PaysOut w s.state)) ∨
      ∃ s₁, Exited exec pool s₀.state.data s₀.Fresh s₁ ∧ Closing exec .author s₁ s)
    (fun s a s' ha hi hs => ?_) has hexec (.inl ⟨hbegin, fun w hw => ?_⟩)
  · rcases hinv with ⟨hauthoring, hcodes⟩ | ⟨s₁, hexited, hclosing⟩
    · exact (hauthoring.noFault hpool hcodes).not_panicked
    · exact (hclosing.noFault hexited hassigned hfresh hpool).not_panicked
  · have hthreads := System.threads_of_step ha hs
    rcases hi with ⟨hauthoring, hcodes⟩ | ⟨s₁, hexited, hclosing⟩
    · rcases hauthoring.step hassigned hthreads with hnext | hpanic | ⟨hexited, rfl⟩
      · refine .inl ⟨hnext, (hauthoring.codes_step hthreads (fun w _ => answers_paysOut w) trivial
          hcodes fun w hw m source tx hstep hevent => ?_).2⟩
        rcases hauthoring.started hw hstep hevent with htx | ⟨htx, -⟩
        · exact (hpool.share htx).paysOut w s.state
        · exact (hpool.passed htx).paysOut w s.state
      · exact absurd hpanic ((hauthoring.noFault hpool hcodes).step hthreads)
      · exact .inr ⟨s, hexited, .begin hexited⟩
    · exact .inr ⟨s₁, hexited, (hclosing.step hexited.orphans hthreads).resolve_right
        fun hmaster => (hclosing.noFault hexited hassigned hfresh hpool).step hthreads (.inr hmaster)⟩
  · rw [System.begin_eq h.submitted h.txPool]
    exact .of_job (h.ready.workers w hw).job

theorem Funded.transfersOf {exec : Executor} {txs : List Transaction} {pool : Pool} {d : Data}
    (h : Funded txs d) (hdist : Distributes exec txs pool) : Transfers pool d := by
  refine ⟨fun t ht => ?_, h.fits⟩
  obtain ⟨tx, htx, w, -, rfl⟩ := hdist.of_mem ht
  exact (h.transfers tx htx).of_content rfl

/-- A completed run leaves what the transfers leave. -/
theorem AuthorCall.settles {exec : Executor} {s₀ s : System} {txs : List Transaction} {pool : Pool}
    {state : StateMap} {block : List Transaction} (h : AuthorCall exec s₀ txs s)
    (hdist : Distributes exec txs pool) (hfresh : ∀ w ∈ exec.workers, s₀.Fresh w)
    (hfunded : Funded txs s₀.state.data) (hpc : s.master.pc = .authored state block) :
    Settles txs s₀.state.data state.data := by
  have hpanic := h.not_dispatchPanicked hdist hfresh (hfunded.transfersOf hdist)
  obtain ⟨s₁, tail, hreturned⟩ := (h.authorRun hdist hpanic).returned hpc
  have hperm : List.Perm (block.map Transaction.content) (txs.map Transaction.content) := by
    rw [← hdist.content]
    exact hreturned.perm_content
  have hsettles := (hfunded.perm hperm).run
    (hreturned.run_block (hdist.assigned h.submitted) hfresh)
  intro a
  rw [← outgoing_perm hperm, ← incoming_perm hperm]
  exact hsettles a

/-- A worker has nothing to be forwarded early where nothing is tainted. -/
theorem System.fresh_of_untainted {s₀ : System} (h : ∀ k, s₀.state.taint k = none) (w : ThreadId) :
    s₀.Fresh w := by
  intro _ k howns
  rw [Owns, h k] at howns
  cases howns

/-- The balances that are left depend on what is transferred only. -/
theorem Settles.balance_eq {txs txs' : List Transaction} {d d₁ d₂ : Data} (h₁ : Settles txs d d₁)
    (h₂ : Settles txs' d d₂)
    (hperm : List.Perm (txs'.map Transaction.content) (txs.map Transaction.content))
    (a : AccountId) : balance d₂ a = balance d₁ a := by
  obtain ⟨hfree₁, hreserved₁⟩ := h₁ a
  obtain ⟨hfree₂, hreserved₂⟩ := h₂ a
  rw [outgoing_perm hperm, incoming_perm hperm] at hfree₂
  have hfree : (balance d₂ a).free = (balance d₁ a).free := BitVec.eq_of_toNat_eq (by omega)
  calc balance d₂ a = ⟨(balance d₂ a).free, (balance d₂ a).reserved⟩ := rfl
    _ = ⟨(balance d₁ a).free, (balance d₁ a).reserved⟩ := by rw [hfree, hreserved₂, hreserved₁]
    _ = balance d₁ a := rfl

/-- **Funded transfers have a result that the schedule does not change**: no thread
panics, and each account ends with what it had, less what it has sent and with what
was sent to it. -/
theorem funded_transfers_any_schedule {exec : Executor} {s₀ s : System} {txs : List Transaction}
    {pool : Pool} (h : AuthorCall exec s₀ txs s) (hdist : Distributes exec txs pool)
    (huntainted : ∀ k, s₀.state.taint k = none) (hfunded : Funded txs s₀.state.data) :
    ¬ s.DispatchPanicked exec ∧ ∀ state block, s.master.pc = .authored state block →
      (∀ a, (balance state.data a).free.toNat =
          (balance s₀.state.data a).free.toNat - outgoing txs a + incoming txs a ∧
        (balance state.data a).reserved = (balance s₀.state.data a).reserved) ∧
      ∀ (exec' : Executor) (s₀' s' : System) (txs' : List Transaction) (pool' : Pool)
        (state' : StateMap) (block' : List Transaction), AuthorCall exec' s₀' txs' s' →
        Distributes exec' txs' pool' → (∀ k, s₀'.state.taint k = none) →
        s₀'.state.data = s₀.state.data → List.Perm txs' txs →
        s'.master.pc = .authored state' block' →
        ∀ a, balance state'.data a = balance state.data a := by
  have hfresh : ∀ w ∈ exec.workers, s₀.Fresh w := fun w _ => System.fresh_of_untainted huntainted w
  refine ⟨h.not_dispatchPanicked hdist hfresh (hfunded.transfersOf hdist),
    fun state block hpc => ?_⟩
  have hsettles := h.settles hdist hfresh hfunded hpc
  refine ⟨fun a => ?_, fun exec' s₀' s' txs' pool' state' block' h' hdist' huntainted' hdata hperm
    hpc' a => ?_⟩
  · obtain ⟨hfree, hreserved⟩ := hsettles a
    have henough := hfunded.enough a
    exact ⟨by omega, hreserved⟩
  · have hcontent := hperm.map Transaction.content
    have hfunded' : Funded txs' s₀'.state.data := hdata ▸ hfunded.perm hcontent
    have hsettles' := h'.settles hdist'
      (fun w _ => System.fresh_of_untainted huntainted' w) hfunded' hpc'
    rw [hdata] at hsettles'
    exact hsettles.balance_eq hsettles' hcontent a

end

section
open Testing

namespace Testing

/-- Alice pays bob twice. -/
def twoPayments : List Transaction :=
  [signed 7 (.balances (.transfer bob 4)) alice, signed 8 (.balances (.transfer bob 1)) alice]

def paidTwice : Option System :=
  Transition.exec (System.step twoWorkers) schedule (spawned.begin twoWorkers (.authorBlock twoPayments))

def paid : System := paidTwice.get (by decide +kernel)

theorem paid_call : AuthorCall twoWorkers spawned twoPayments paid where
  ready := spawned_ready
  txPool := rfl
  orphanPool := rfl
  submitted := ⟨by decide +kernel, by decide, by decide⟩
  run := ⟨schedule, by decide, (Option.some_get _).symm⟩

theorem twoPayments_distributes : Distributes twoWorkers twoPayments
    (twoPayments.mapIdx fun i tx => { tx with tag := .done (twoWorkers.workers.getD (i % 2) 0) }) :=
  ⟨rfl, .cons ⟨1, by decide, rfl⟩ (.cons ⟨2, by decide, rfl⟩ .nil)⟩

theorem paid_returned : ∃ state block, paid.master.pc = .authored state block := by
  have h : (returned paid).isSome = true := by decide +kernel
  unfold returned at h
  split at h
  · rename_i state block hpc
    exact ⟨state, block, hpc⟩
  · cases h

theorem balance_spawned_alice : balance spawned.state.data alice = ⟨10, 0⟩ := by decide +kernel

theorem twoPayments_funded : Funded twoPayments spawned.state.data where
  transfers := by
    intro tx htx
    simp only [twoPayments, List.mem_cons, List.not_mem_nil, or_false] at htx
    rcases htx with rfl | rfl
    · exact ⟨bob, 4, rfl⟩
    · exact ⟨bob, 1, rfl⟩
  enough a := by
    by_cases ha : alice = a
    · subst ha
      rw [balance_spawned_alice]
      decide +kernel
    · have hnone : outgoing twoPayments a = 0 := by
        simp [outgoing, twoPayments, Transaction.sent, signed, Transaction.new, ha]
      rw [hnone]
      exact Nat.zero_le _
  fits := by
    rw [show spawned.state = endowedState from rfl, totalMoney_endowedState]
    decide

end Testing

theorem funded_transfers_any_schedule_twoPayments :
    ¬ paid.DispatchPanicked twoWorkers ∧ ∃ state block, paid.master.pc = .authored state block ∧
      (balance state.data alice).free.toNat = 10 - 5 + 0 ∧
      (balance state.data bob).free.toNat = 0 - 0 + 5 := by
  obtain ⟨hpanic, hbalances⟩ := funded_transfers_any_schedule paid_call twoPayments_distributes
    spawned_untainted twoPayments_funded
  obtain ⟨state, block, hpc⟩ := paid_returned
  refine ⟨hpanic, state, block, hpc, ?_, ?_⟩
  · rw [((hbalances state block hpc).1 alice).1]
    decide +kernel
  · rw [((hbalances state block hpc).1 bob).1]
    decide +kernel

end
end SonicChain
