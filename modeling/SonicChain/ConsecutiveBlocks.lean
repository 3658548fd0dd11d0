import SonicChain.ValidatedBlock

/-! # One block after the other

A call of `validate_block` puts the orphans of its block into the orphan pool and executes
the pool, which only `clean` empties.  So on one executor each call executes its own block
and, once more, the orphans of all blocks before it (`consecutive_validations`).  It
executes its own block and nothing else exactly when no block before it has orphans
(`blocks_validated_once`); and then the calls leave what the sequential executor leaves, if
the blocks list their orphans last, as an author does.
-/

namespace SonicChain
open Worker StoreProgram

section
variable [Ed25519]

/-! ## What a call dispatches -/

/-- The transactions that have been dispatched in a call of `validate_block`: those of the
workers, and those of the master. -/
def dispatchedIn (exec : Executor) (log : List Event) : List Transaction :=
  exec.workers.flatMap (fun w => validatedBy w log) ++ orphansExecuted log

section
variable {exec : Executor} {s₀ s : System} {block : List Transaction} {state : StateMap}

/-- The shares of the workers and the orphans make up the block. -/
theorem Tagged.perm (h : Tagged exec block) :
    List.Perm (exec.workers.flatMap (Pool.share block) ++ Pool.orphans block) block := by
  have hshares := Tally.perm_filter Transaction.tag ExecutionTag.done_injective exec.nodup h.executed
  have hshare : ∀ w ∈ exec.workers,
      (Pool.executed block).filter (fun tx => decide (tx.tag = .done w)) = Pool.share block w :=
    fun w _ => Pool.share_executed block w
  rw [List.flatMap_congr hshare] at hshares
  refine (hshares.symm.append_right _).trans (List.perm_append_comm.trans ?_)
  have hnot : Pool.executed block = block.filter fun tx => !decide (tx.tag = .orphan) :=
    List.filter_congr fun tx _ => decide_not
  rw [hnot]
  exact List.filter_append_perm _ block

/-- **A call dispatches its block, and what was in the orphan pool before.** -/
theorem Revalidated.perm_dispatchedIn (h : Revalidated exec s₀ block s state)
    (htagged : Tagged exec block) :
    List.Perm (dispatchedIn exec s.log) (s₀.master.orphanPool ++ block) := by
  rw [dispatchedIn, List.flatMap_congr h.validated, h.orphans, ← List.append_assoc]
  refine (List.perm_append_comm.append_right _).trans ?_
  rw [List.append_assoc]
  exact htagged.perm.append_left _

end

/-! ## The calls -/

/-- The transactions that calls of `validate_block` execute, one after the other: the
orphans of a block come back after each of the later blocks. -/
def Pool.replayedAll (leftover : List Transaction) : List Pool → List Transaction
  | [] => []
  | block :: blocks =>
    replayed leftover block ++ replayedAll (leftover ++ Pool.orphans block) blocks

theorem Pool.replayedAll_concat (leftover : List Transaction) (blocks : List Pool) (block : Pool) :
    replayedAll leftover (blocks ++ [block]) =
      replayedAll leftover blocks ++ replayed (leftover ++ blocks.flatMap Pool.orphans) block := by
  induction blocks generalizing leftover with
  | nil => simp [replayedAll]
  | cons first blocks ih =>
    rw [List.cons_append, replayedAll, ih, replayedAll, List.append_assoc, List.flatMap_cons,
      List.append_assoc]

/-- The block lists its orphans last, in their order. -/
def Pool.OrphansLast (block : Pool) : Prop := executed block ++ Pool.orphans block = block

/-- Where no block before the last has orphans, none comes back. -/
theorem Pool.replayedAll_eq_flatten {blocks : List Pool} {block : Pool}
    (hnone : ∀ before ∈ blocks, Pool.orphans before = [])
    (hlast : ∀ b ∈ blocks ++ [block], b.OrphansLast) :
    replayedAll [] (blocks ++ [block]) = (blocks ++ [block]).flatten := by
  induction blocks with
  | nil =>
    have hblock : Pool.executed block ++ Pool.orphans block = block := hlast block (by simp)
    simpa [replayedAll, replayed] using hblock
  | cons first blocks ih =>
    have hfirst := hnone first (List.mem_cons_self ..)
    have hblock : Pool.executed first ++ Pool.orphans first = first :=
      hlast first (List.mem_cons_self ..)
    rw [List.cons_append, replayedAll, hfirst, List.append_nil, List.flatten_cons, replayed,
      List.nil_append, hblock, ih (fun b hb => hnone b (List.mem_cons_of_mem _ hb))
        fun b hb => hlast b (List.mem_cons_of_mem _ hb)]

/-- Calls of `validate_block` on one executor, each on the state that the one before has
left. -/
inductive Validations (exec : Executor) (s₀ : System) : List Pool → System → Prop
  | start : Validations exec s₀ [] s₀
  | next {blocks : List Pool} {block : Pool} {own : Key → Option ThreadId} {s s' : System}
    {state : StateMap} (hbefore : Validations exec s₀ blocks s) (htagged : Tagged exec block)
    (hapart : Apart exec own block s.state.data) (hcalled : s.Called exec (.validateBlock block) s')
    (hpc : s'.master.pc = .validated state) : Validations exec s₀ (blocks ++ [block]) s'

section
variable {exec : Executor} {s₀ s s' : System} {blocks : List Pool} {block : Pool}
  {own : Key → Option ThreadId} {state : StateMap}

/-- What calls of `validate_block` have come to. -/
structure Validations.Outcome (exec : Executor) (s₀ : System) (blocks : List Pool) (s : System) :
    Prop where
  ready : s.Ready exec
  orphanPool : s.master.orphanPool = s₀.master.orphanPool ++ blocks.flatMap Pool.orphans
  run : runAll ((Pool.replayedAll s₀.master.orphanPool blocks).map Transaction.code) s₀.state.data =
    .ok s.state.data
  keys : ∀ k, k ∈ s.state ↔ k ∈ s₀.state ∨
    k ∈ writtenAll ((Pool.replayedAll s₀.master.orphanPool blocks).map Transaction.code) s₀.state.data

theorem Validations.Outcome.call (h : Validations.Outcome exec s₀ blocks s)
    (horphans : ∀ tx ∈ s₀.master.orphanPool, tx.tag = .orphan)
    (hcalled : s.Called exec (.validateBlock block) s') : ValidateCall exec s block s' := by
  refine ⟨h.ready, fun tx htx => ?_, hcalled⟩
  rw [h.orphanPool, List.mem_append] at htx
  rcases htx with htx | htx
  · exact horphans tx htx
  · obtain ⟨before, -, htx⟩ := List.mem_flatMap.mp htx
    exact of_decide_eq_true (List.mem_filter.mp htx).2

/-- **Each call executes its block and all orphans so far.** -/
theorem Validations.outcome (h : Validations exec s₀ blocks s) (hready : s₀.Ready exec)
    (horphans : ∀ tx ∈ s₀.master.orphanPool, tx.tag = .orphan) :
    Validations.Outcome exec s₀ blocks s := by
  induction h with
  | start =>
    refine ⟨hready, (List.append_nil _).symm, rfl, fun k => ?_⟩
    simp [Pool.replayedAll, writtenAll]
  | @next blocks block own s s' state hbefore htagged hapart hcalled hpc ih =>
    have hreturned := (ih.call horphans hcalled).returned htagged hapart hpc
    have hstate := hreturned.state_eq
    have hrun := hreturned.run
    have hkeys := hreturned.keys
    rw [hstate, ih.orphanPool] at hrun
    rw [hstate, ih.orphanPool] at hkeys
    refine ⟨hreturned.ready, ?_, ?_, fun k => ?_⟩
    · rw [hreturned.orphanPool, ih.orphanPool, List.flatMap_append, List.append_assoc,
        List.flatMap_singleton]
    · rw [Pool.replayedAll_concat, List.map_append, runAll_append ih.run]
      exact hrun
    · rw [hkeys k, ih.keys k, Pool.replayedAll_concat, List.map_append, writtenAll_append ih.run,
        List.mem_append, or_assoc]

end

section
variable {exec : Executor} {s₀ s s' : System} {blocks : List Pool} {block : Pool}
  {own : Key → Option ThreadId} {state : StateMap} (h : Validations exec s₀ blocks s)
  (hready : s₀.Ready exec) (horphans : s₀.master.orphanPool = []) (htagged : Tagged exec block)
  (hapart : Apart exec own block s.state.data) (hcalled : s.Called exec (.validateBlock block) s')
  (hpc : s'.master.pc = .validated state)
include h hready horphans htagged hapart hcalled hpc

/-- The last of the calls, with the orphans of the blocks before it in the pool. -/
theorem Validations.revalidated :
    Revalidated exec s block s' state ∧ s.master.orphanPool = blocks.flatMap Pool.orphans := by
  have hnone := System.onlyOrphans horphans
  have hbefore := h.outcome hready hnone
  refine ⟨(hbefore.call hnone hcalled).returned htagged hapart hpc, ?_⟩
  rw [hbefore.orphanPool, horphans, List.nil_append]

/-- What all the calls have made of the state. -/
theorem Validations.replays :
    runAll ((Pool.replayedAll [] (blocks ++ [block])).map Transaction.code) s₀.state.data =
      .ok state.data ∧
    ∀ k, k ∈ state ↔ k ∈ s₀.state ∨
      k ∈ writtenAll ((Pool.replayedAll [] (blocks ++ [block])).map Transaction.code)
        s₀.state.data := by
  have hstate := (h.revalidated hready horphans htagged hapart hcalled hpc).1.state_eq
  have houtcome :=
    (h.next htagged hapart hcalled hpc).outcome hready (System.onlyOrphans horphans)
  have hrun := houtcome.run
  have hkeys := houtcome.keys
  rw [horphans, ← hstate] at hrun hkeys
  exact ⟨hrun, hkeys⟩

/-- **Orphans are executed again by every later call.**  Nobody empties the orphan pool
between calls of `validate_block`: a call executes the workers' transactions of its block
and then the orphans of all blocks so far, and it leaves what the sequential executor
leaves when it does the same. -/
theorem consecutive_validations :
    (∀ w ∈ exec.workers, validatedBy w s'.log = Pool.share block w) ∧
    orphansExecuted s'.log = blocks.flatMap Pool.orphans ++ Pool.orphans block ∧
    ∃ self, SequentialExecutor.validateBlock ⟨s₀.state⟩ (Pool.replayedAll [] (blocks ++ [block])) =
      .ok self ∧ state.stateEq self.state = true := by
  obtain ⟨hreturned, hpool⟩ := h.revalidated hready horphans htagged hapart hcalled hpc
  obtain ⟨hrun, hkeys⟩ := h.replays hready horphans htagged hapart hcalled hpc
  refine ⟨hreturned.validated, by rw [hreturned.orphans, hpool], ?_⟩
  obtain ⟨seqState, hseq, hdata, hseqKeys⟩ := SequentialExecutor.applyTransaction_of_ok hrun
  refine ⟨⟨seqState⟩, by rw [SequentialExecutor.validateBlock, hseq]; rfl, ?_⟩
  refine StateType.stateEq_iff_data.mpr ⟨fun k => ?_, hdata.symm⟩
  rw [hkeys k, hseqKeys k]

/-- **Each block is executed once**, as long as no block before it has orphans: a call
dispatches the transactions of its block, once each, if and only if the pool has nothing
left from the blocks before.  Where that is so in all calls and each block lists its
orphans last, they leave what the sequential executor leaves on the same blocks. -/
theorem blocks_validated_once :
    (List.Perm (dispatchedIn exec s'.log) block ↔
      ∀ before ∈ blocks, Pool.orphans before = []) ∧
    ((∀ before ∈ blocks, Pool.orphans before = []) →
      (∀ b ∈ blocks ++ [block], b.OrphansLast) →
      ∃ self, (blocks ++ [block]).foldlM SequentialExecutor.validateBlock ⟨s₀.state⟩ = .ok self ∧
        state.data = self.state.data) := by
  obtain ⟨hreturned, hpool⟩ := h.revalidated hready horphans htagged hapart hcalled hpc
  obtain ⟨hrun, -⟩ := h.replays hready horphans htagged hapart hcalled hpc
  have hperm := hreturned.perm_dispatchedIn htagged
  rw [hpool] at hperm
  refine ⟨⟨fun honce => ?_, fun hnone => ?_⟩, fun hnone hlast => ?_⟩
  · have hlength := (hperm.symm.trans honce).length_eq
    rw [List.length_append, Nat.add_eq_right, List.length_eq_zero_iff] at hlength
    exact List.flatMap_eq_nil_iff.mp hlength
  · rwa [List.flatMap_eq_nil_iff.mpr hnone, List.nil_append] at hperm
  · rw [Pool.replayedAll_eq_flatten hnone hlast] at hrun
    obtain ⟨self, hself, hdata⟩ := SequentialExecutor.validateBlocks_of_ok ⟨s₀.state⟩ hrun
    exact ⟨self, hself, hdata.symm⟩

end
end

section
open Testing

namespace Testing

/-- Alice pays bob, without orphans, and then the block in which bob's payment is one is
validated. -/
def plainSchedule : List Action :=
  List.replicate 7 Action.master ++ List.replicate 5 (Action.worker 1) ++
    List.replicate 11 (Action.worker 2) ++
    [Action.collect 1, .master, .collect 2] ++ List.replicate 2 Action.master

def plainValidated : System :=
  (Transition.exec (System.step twoWorkers) plainSchedule
    (spawned.begin twoWorkers (.validateBlock secondBlock))).get (by decide +kernel)

def orphanSchedule : List Action :=
  List.replicate 9 Action.master ++
    (List.replicate 10 [Action.worker 1, Action.worker 2]).flatten ++
    [Action.collect 1, .master, .collect 2] ++ List.replicate 8 Action.master

def orphanValidated : System :=
  (Transition.exec (System.step twoWorkers) orphanSchedule
    (plainValidated.begin twoWorkers (.validateBlock firstBlock))).get (by decide +kernel)

def plainState : StateMap := (validatedState plainValidated).get (by decide +kernel)

def orphanState : StateMap := (validatedState orphanValidated).get (by decide +kernel)

end Testing

/-- Bob's transaction is executed once more. -/
theorem consecutive_validations_orphan : ∃ state, secondValidated.master.pc = .validated state ∧
    (∀ w ∈ twoWorkers.workers, validatedBy w secondValidated.log = Pool.share secondBlock w) ∧
    orphansExecuted secondValidated.log =
      [firstBlock].flatMap Pool.orphans ++ Pool.orphans secondBlock ∧
    ∃ self, SequentialExecutor.validateBlock ⟨spawned.state⟩
      (Pool.replayedAll [] ([firstBlock] ++ [secondBlock])) = .ok self ∧
        state.stateEq self.state = true := by
  refine ⟨_, secondValidated_pc, ?_⟩
  have hfirst : Validations twoWorkers spawned [firstBlock] firstValidated :=
    .next .start firstBlock_tagged (firstBlock_apart _) firstValidated_called firstValidated_pc
  exact consecutive_validations hfirst spawned_ready rfl secondBlock_tagged (secondBlock_apart _)
    secondValidated_called secondValidated_pc

theorem blocks_validated_once_orphanLast : ∃ state, orphanValidated.master.pc = .validated state ∧
    List.Perm (dispatchedIn twoWorkers orphanValidated.log) firstBlock ∧
    ∃ self, ([secondBlock] ++ [firstBlock]).foldlM SequentialExecutor.validateBlock ⟨spawned.state⟩ =
      .ok self ∧ state.data = self.state.data := by
  have hplain : plainValidated.master.pc = .validated plainState :=
    pc_of_validatedState (Option.some_get _).symm
  have horphan : orphanValidated.master.pc = .validated orphanState :=
    pc_of_validatedState (Option.some_get _).symm
  have hfirst : Validations twoWorkers spawned ([] ++ [secondBlock]) plainValidated :=
    .next .start secondBlock_tagged (secondBlock_apart _)
      ⟨plainSchedule, by decide, (Option.some_get _).symm⟩ hplain
  obtain ⟨honce, hdata⟩ := blocks_validated_once hfirst spawned_ready rfl firstBlock_tagged
    (firstBlock_apart _) ⟨orphanSchedule, by decide, (Option.some_get _).symm⟩ horphan
  have hnone : ∀ before ∈ [secondBlock], Pool.orphans before = [] := by
    intro before hbefore
    obtain rfl := List.mem_singleton.mp hbefore
    rfl
  refine ⟨_, horphan, honce.mpr hnone, hdata hnone fun b hb => ?_⟩
  rcases List.mem_cons.mp hb with rfl | hb
  · rfl
  · obtain rfl := List.mem_singleton.mp hb
    rfl

/-- Bob's payment in the first block is an orphan: the second call dispatches it again, and
bob has paid twice. -/
theorem orphan_validated_twice :
    Validations twoWorkers spawned [firstBlock] firstValidated ∧
    firstValidated.Called twoWorkers (.validateBlock secondBlock) secondValidated ∧
    ∃ state self, secondValidated.master.pc = .validated state ∧
      [firstBlock, secondBlock].foldlM SequentialExecutor.validateBlock ⟨spawned.state⟩ = .ok self ∧
      ¬ List.Perm (dispatchedIn twoWorkers secondValidated.log) secondBlock ∧
      state.data ≠ self.state.data := by
  have hseq : ([firstBlock, secondBlock].foldlM SequentialExecutor.validateBlock
      ⟨spawned.state⟩).map (fun self => self.state.data (balanceOf.keyFor bob)) =
        .ok (leBytes 16 4 ++ leBytes 16 0) := by decide +kernel
  have hpaid : secondState.data (balanceOf.keyFor bob) = leBytes 16 3 ++ leBytes 16 0 := by
    decide +kernel
  have hlength : (dispatchedIn twoWorkers secondValidated.log).length = 2 := by decide +kernel
  refine ⟨.next .start firstBlock_tagged (firstBlock_apart _) firstValidated_called
    firstValidated_pc, secondValidated_called, ?_⟩
  cases hself : [firstBlock, secondBlock].foldlM SequentialExecutor.validateBlock
      ⟨spawned.state⟩ with
  | error why => rw [hself] at hseq; cases hseq
  | ok self =>
    rw [hself] at hseq
    refine ⟨secondState, self, secondValidated_pc, rfl, fun hperm => ?_, fun hdata => ?_⟩
    · exact absurd (hlength.symm.trans hperm.length_eq) (by decide)
    · rw [hdata] at hpaid
      exact absurd (hpaid.symm.trans (Except.ok.inj hseq)) (by decide)

end
end SonicChain
