import SonicChain.AuthorRun

/-! # The code inside dispatches

What may be said of the code that a worker still has to run, inside a dispatch,
whatever the others do.  A worker's access is answered in one of three ways
(`Answer`); what the answers and the others' steps preserve of the code
(`Answers`) holds inside every dispatch of a run (`Authoring.codes_step`).
-/

namespace SonicChain
open StoreProgram TaintState ConcurrentRuntime

section
variable {id : ThreadId} {state state' : StateMap} {key : Key} {outcome : Except ThreadId Value}

/-- How an access of worker `id` is answered. -/
inductive Answer (id : ThreadId) (state : StateMap) (key : Key) :
    Except ThreadId Value → StateMap → Prop
  | owned (value : Value) (h : Owns id state key) : Answer id state key (.ok value) state
  | tainted (h : state.taint key = none) :
    Answer id state key (.ok (state.data key)) (state.insert key ⟨state.data key, some id⟩)
  | refused {owner : ThreadId} (h : Owns owner state key) (hne : owner ≠ id) :
    Answer id state key (.error owner) state

theorem Answer.touch (h : Answer id state key outcome state') : Touch id state state' := by
  cases h with
  | owned value h => exact .same
  | tainted h => exact .taint key h
  | refused h hne => exact .same

theorem Answer.owns {value : Value} (h : Answer id state key (.ok value) state') :
    Owns id state' key := by
  cases h with
  | owned value h => exact h
  | tainted h => rw [Owns, StateType.taint_insert, Function.update_self]

end

namespace Worker
variable [Ed25519]

/-- What holds of the code inside a dispatch. -/
def Pc.Code (Φ : Storage (Except DispatchError Unit) → Prop) : Pc → Prop
  | .executing _ code _ => Φ code
  | .recheck _ code _ _ => Φ code
  | _ => True

theorem Pc.Code.of_job {Φ : Storage (Except DispatchError Unit) → Prop} {pc : Pc}
    (h : pc.job = none) : pc.Code Φ := by
  cases pc with
  | executing job code cache => cases h
  | recheck job code cache branch => cases h
  | _ => trivial

theorem Pc.Code.mono {Φ Φ' : Storage (Except DispatchError Unit) → Prop} {pc : Pc}
    (h : pc.Code Φ) (hΦ : ∀ code, Φ code → Φ' code) : pc.Code Φ' := by
  cases pc with
  | executing job code cache => exact hΦ code h
  | recheck job code cache branch => exact hΦ code h
  | _ => trivial

/-- What is said of the state, and of the code of worker `id`, outlives the answers that
the worker gets, its commits, and the steps of the others. -/
structure Answers (id : ThreadId) (I : StateMap → Prop)
    (Φ : StateMap → Storage (Except DispatchError Unit) → Prop) : Prop where
  answer : ∀ {state state' : StateMap} {code : Storage (Except DispatchError Unit)} {cache : Cache}
    {key : Key} {outcome : Except ThreadId Value}, I state → Φ state code →
    accessKey code = some key → Answer id state key outcome state' →
    I state' ∧ Φ state' (answer code cache outcome).1
  commit : ∀ {state : StateMap} {key : Key} (value : Value), I state → Owns id state key →
    I (state.insert key ⟨value, some id⟩)
  touch : ∀ {v : ThreadId} {state state' : StateMap} {code : Storage (Except DispatchError Unit)},
    Touch v state state' → Φ state code → Φ state' code

variable {workers : List ThreadId} {data₀ : Key → Value} {id : ThreadId} {state : StateMap}
  {codes : List (Storage (Except DispatchError Unit))} {stored : List Key} {wk : Worker} {m : Move}
  {job : Job} {code : Storage (Except DispatchError Unit)} {cache : Cache} {key : Key}

/-- An access is answered, or left to the write lock. -/
theorem Faithful.access_cases (wk : Worker)
    (h : Faithful workers data₀ id state codes stored (.executing job code cache))
    (hkey : accessKey code = some key) :
    (Worker.access id wk state job code cache key).state = state ∧
      ((∃ branch, (Worker.access id wk state job code cache key).worker.pc =
          .recheck job code cache branch) ∨
        ∃ outcome, Answer id state key outcome state ∧
          (Worker.access id wk state job code cache key).worker.pc =
            .executing job (answer code cache outcome).1 (answer code cache outcome).2) := by
  unfold Worker.access
  cases hcached : cache.lookup key with
  | some value =>
    -- What is in the cache belongs to the worker.
    obtain ⟨view, -, -, hpc⟩ := h
    refine ⟨rfl, .inr ⟨.ok value, .owned value ?_, rfl⟩⟩
    cases hpc with
    | outside hpc => cases hpc
    | executing hsync hstored htracks hstop => exact htracks.cached key (by simp [hcached])
    | refused _ _ _ _ _ hrefused =>
      cases code with
      | done r => cases hkey
      | fault why => cases hkey
      | read k next => exact hrefused.elim
      | write k value next => exact hrefused.elim
  | none =>
    dsimp only
    cases hsection : readSection state key id with
    | inl branch => exact ⟨rfl, .inl ⟨branch, rfl⟩⟩
    | inr outcome =>
      have hread := readSection_done hsection
      refine ⟨rfl, .inr ⟨outcome, ?_, rfl⟩⟩
      unfold atomicRead at hread
      cases ht : state.taint key with
      | some owner =>
        rw [ht] at hread
        by_cases hid : owner = id
        · simp only [hid, ↓reduceIte, Prod.mk.injEq, and_true] at hread
          rw [← hread]
          exact .owned _ (hid ▸ ht)
        · simp only [hid, ↓reduceIte, Prod.mk.injEq, and_true] at hread
          rw [← hread]
          exact .refused ht hid
      | none =>
        -- An untainted key is not decided under the read lock.
        rw [ht] at hread
        obtain ⟨-, hstate⟩ := Prod.mk.inj hread
        have hsame := congrFun (congrArg StateType.taint hstate) key
        rw [ht, StateType.taint_insert, Function.update_self] at hsame
        cases hsame

/-- The write-lock section answers. -/
theorem Faithful.accessRecheck_cases (wk : Worker) {branch : Recheck}
    (h : Faithful workers data₀ id state codes stored (.recheck job code cache branch))
    (hkey : accessKey code = some key) :
    ∃ outcome, Answer id state key outcome
        (Worker.accessRecheck id wk state job code cache branch key).state ∧
      (Worker.accessRecheck id wk state job code cache branch key).worker.pc =
        .executing job (answer code cache outcome).1 (answer code cache outcome).2 := by
  obtain ⟨view, -, -, hpc⟩ := h
  cases hpc with
  | outside hpc => cases hpc
  | recheck hsync hstored htracks hstop hpending =>
    obtain ⟨-, hpend⟩ := hpending key hkey
    rw [Worker.accessRecheck, readRecheck_eq hpend]
    simp only [atomicRead]
    cases ht : state.taint key with
    | some owner =>
      have hid : owner ≠ id := fun he => hpend.foreign (he ▸ ht)
      simp only [hid, ↓reduceIte]
      exact ⟨.error owner, .refused ht hid, rfl⟩
    | none => exact ⟨.ok (state.data key), .tainted ht, rfl⟩

theorem executeOrForward_state (result : RuntimeDispatchResult) :
    (executeOrForward id wk state job result).state = state := by
  unfold executeOrForward
  dsimp only
  split
  · repeat' split
    all_goals rfl
  · split <;> rfl

/-- **A step of a worker keeps what is said of the state and of its code**, if it holds
of the code of the transaction that the step begins to execute. -/
theorem Step.keepsCode {I : StateMap → Prop} {Φ : StateMap → Storage (Except DispatchError Unit) → Prop}
    (hstep : Step id wk state m) (hanswers : Answers id I Φ) (hI : I state)
    (hfaithful : Faithful workers data₀ id state codes stored wk.pc) (hpc : ¬ wk.pc.Validates)
    (hcode : wk.pc.Code (Φ state))
    (hstart : ∀ source tx, .attempted id source tx ∈ m.events → Φ state tx.code) :
    I m.state ∧ m.worker.pc.Code (Φ m.state) := by
  cases hstep with
  | access hpc hkey =>
    rw [hpc] at hfaithful hcode
    obtain ⟨hstate, ⟨branch, hpc'⟩ | ⟨outcome, hanswer, hpc'⟩⟩ :=
      hfaithful.access_cases wk hkey
    · rw [hpc', hstate]
      exact ⟨hI, hcode⟩
    · rw [hpc', hstate]
      exact hanswers.answer hI hcode hkey hanswer
  | accessRecheck hpc hkey =>
    rw [hpc] at hfaithful hcode
    obtain ⟨outcome, hanswer, hpc'⟩ := hfaithful.accessRecheck_cases wk hkey
    rw [hpc']
    exact hanswers.answer hI hcode hkey hanswer
  | commit hpc hkey hcommit =>
    rw [hpc] at hfaithful
    obtain ⟨view, -, -, hfaithful⟩ := hfaithful
    cases hfaithful with
    | outside hjob => cases hjob
    | committing hrun htouched hsync hcached hstored =>
      have howns := hcached _ (by rw [hkey]; exact Option.some_ne_none _)
      rw [commitEntry_eq howns] at hcommit
      obtain rfl := Except.ok.inj hcommit
      exact ⟨hanswers.commit _ hI howns, trivial⟩
  | takeTransaction hpc hq => exact ⟨hI, hstart _ _ (List.mem_singleton_self _)⟩
  | takeForwarded hpc hq => exact ⟨hI, hstart _ _ (List.mem_singleton_self _)⟩
  | settle hres =>
    rw [executeOrForward_state]
    refine ⟨hI, Pc.Code.of_job ?_⟩
    unfold executeOrForward
    dsimp only
    split
    · repeat' split
      all_goals first | exact Caller.resume_job _ _ | rfl
    · split <;> exact Caller.resume_job _ _
  | validateWrite hpc' => exact absurd (by rw [hpc']; trivial) hpc
  | _ => exact ⟨hI, trivial⟩

end Worker

/-! ## The system -/

section
open Worker
variable [Ed25519] {exec : Executor} {pool : Pool} {data₀ : Key → Value} {fresh : ThreadId → Prop}
  {s s' : System} {w : ThreadId} {m : Move}

/-- The master leaves the state and the record alone, outside the dispatch of an
orphan. -/
theorem System.masterStep_state (h : s.masterStep exec = some s')
    (hpc : ∀ r tx code rest, s.master.pc ≠ .executingOrphan r tx code rest) :
    s'.state = s.state ∧ s'.log = s.log := by
  unfold masterStep at h
  split at h
  · rename_i effect todo htodo
    obtain rfl := Option.some.inj h
    cases effect <;> exact ⟨rfl, rfl⟩
  · repeat' split at h
    all_goals cases h
    all_goals first
      | exact ⟨rfl, rfl⟩
      | (rename_i return_to _; cases return_to <;> exact ⟨rfl, rfl⟩)
      | exact absurd ‹_› (hpc _ _ _ _)

/-- It sends nothing in the name of a worker. -/
theorem System.masterStep_fromOthers (h : s.masterStep exec = some s') (v : ThreadId) :
    (s'.worker v).fromOthers = (s.worker v).fromOthers := by
  unfold masterStep at h
  split at h
  · rename_i effect todo htodo
    obtain rfl := Option.some.inj h
    cases effect with
    | unpark u | send u payload =>
      by_cases hv : v = u
      · subst hv; simp [perform, setWorker]
      · simp [perform, setWorker, hv]
    | _ => rfl
  · repeat' split at h
    all_goals cases h
    all_goals first | rfl | rw [finish_worker]

theorem System.collect_eq (h : s.collect w = some s') : s'.state = s.state ∧
    (∀ v, (s'.worker v).fromOthers = (s.worker v).fromOthers) ∧
    ∃ payload, s'.log = s.log ++ [.collected w payload] := by
  have hreceived : ∀ rest v,
      (Function.update s.worker w { s.worker w with toMaster := rest } v).fromOthers =
        (s.worker v).fromOthers := by
    intro rest v
    by_cases hv : v = w
    · subst hv; simp
    · simp [hv]
  unfold collect at h
  split at h
  · dsimp only at h
    split at h <;> obtain rfl := Option.some.inj h <;> exact ⟨rfl, hreceived _, _, rfl⟩
  · dsimp only at h
    split at h <;> obtain rfl := Option.some.inj h <;> exact ⟨rfl, hreceived _, _, rfl⟩
  · cases h

namespace Authoring
variable (h : Authoring exec pool data₀ fresh s)
include h

/-- A worker changes the state as workers do. -/
theorem touch (hw : w ∈ exec.workers) (hstep : Step w (s.worker w) s.state m) :
    Touch w s.state m.state := by
  have hinv := h.workers w hw
  by_cases hexec : ∃ job, (s.worker w).pc.Executes job
  · obtain ⟨job, hexec⟩ := hexec
    rcases hinv.faithful.inside h.untouched hstep hexec with hm | ⟨why, rfl⟩ | ⟨result, hres, rfl⟩
    · exact hm.touch
    · exact .same
    · rw [executeOrForward_state]
      exact .same
  · cases hstep with
    | access hpc => exact absurd ⟨_, by rw [hpc]; exact .executing ..⟩ hexec
    | accessRecheck hpc => exact absurd ⟨_, by rw [hpc]; exact .recheck ..⟩ hexec
    | commit hpc => exact absurd ⟨_, by rw [hpc]; exact .committing ..⟩ hexec
    | settle hres => exact absurd ⟨_, hres.executes⟩ hexec
    | validateWrite hpc =>
      refine absurd ?_ hinv.stand.not_validates
      rw [hpc]
      trivial
    | _ => exact .same

/-- The master is not inside a dispatch. -/
theorem master_ne (r : Master.Return) (tx : Transaction)
    (code : Storage (Except DispatchError Unit)) (rest : List Transaction) :
    s.master.pc ≠ .executingOrphan r tx code rest := by
  intro hpc
  have hmaster := h.master
  rw [MasterInv, hpc] at hmaster
  exact hmaster

/-- A transaction that the worker takes is one of its own, or was forwarded to it. -/
theorem started (hw : w ∈ exec.workers) (hstep : Step w (s.worker w) s.state m)
    {source : Option ThreadId} {tx : Transaction} (hevent : .attempted w source tx ∈ m.events) :
    tx ∈ pool.share w ∨
      Passed pool w tx ∧ ∃ v, source = some v ∧ (s.worker w).fromOthers v ≠ [] := by
  have hinv := h.workers w hw
  cases hstep with
  | takeTransaction hpc hq =>
    cases List.mem_singleton.mp hevent
    have hstand := hinv.stand
    rw [hpc, hq] at hstand
    obtain ⟨-, -, early, before, txs, own, -, hinbox, -, hshare, -⟩ := hstand.of_depleting
    obtain ⟨txs', rfl, -⟩ := orders_eq_transaction hinbox
    left
    rw [hshare]
    simp
  | takeForwarded hpc hq =>
    cases List.mem_singleton.mp hevent
    right
    obtain ⟨t, ht, htag, hpayload⟩ := hinv.queues _ _ (by rw [hq]; exact List.mem_cons_self ..)
    cases hpayload
    exact ⟨⟨_, ht, htag, rfl⟩, _, rfl, by rw [hq]; exact List.cons_ne_nil _ _⟩
  | accessRecheck hpc hkey =>
    unfold Worker.accessRecheck at hevent
    split at hevent
    · simp only [answered] at hevent
      split at hevent
      · cases List.mem_singleton.mp hevent
      · cases hevent
    · cases hevent
  | access hpc hkey =>
    unfold Worker.access at hevent
    split at hevent
    · cases hevent
    · split at hevent <;> cases hevent
  | settle hres =>
    unfold executeOrForward at hevent
    dsimp only at hevent
    repeat' split at hevent
    all_goals first | cases List.mem_singleton.mp hevent | cases hevent
  | report | commit | validateWrite | validateEnd => cases List.mem_singleton.mp hevent
  | _ => cases hevent

/-- **A step keeps what is said of the state and of the code inside dispatches**, if it
holds of the code of each transaction that a worker may take now. -/
theorem codes_step {I : StateMap → Prop}
    {Φ : ThreadId → StateMap → Storage (Except DispatchError Unit) → Prop}
    (hs : s.Threads exec s') (hanswers : ∀ w ∈ exec.workers, Answers w I (Φ w)) (hI : I s.state)
    (hcodes : ∀ w ∈ exec.workers, (s.worker w).pc.Code (Φ w s.state))
    (hstart : ∀ w ∈ exec.workers, ∀ m source tx, Step w (s.worker w) s.state m →
      .attempted w source tx ∈ m.events → Φ w s.state tx.code) :
    I s'.state ∧ ∀ w ∈ exec.workers, (s'.worker w).pc.Code (Φ w s'.state) := by
  cases hs with
  | @worker w m hw hstep =>
    have hinv := h.workers w hw
    obtain ⟨hI', hcode⟩ := hstep.keepsCode (hanswers w hw) hI hinv.faithful hinv.stand.not_validates
      (hcodes w hw) fun source tx => hstart w hw m source tx hstep
    refine ⟨hI', fun v hv => ?_⟩
    by_cases hvw : v = w
    · subst hvw
      rw [System.applyMove_pc_self]
      exact hcode
    · rw [System.applyMove_pc_other hvw]
      exact (hcodes v hv).mono fun code => (hanswers v hv).touch (h.touch hw hstep)
  | master hstep =>
    rw [(System.masterStep_state hstep h.master_ne).1]
    refine ⟨hI, fun v hv => ?_⟩
    rw [System.masterStep_pc hstep]
    exact hcodes v hv
  | collect hw hstep =>
    rw [(System.collect_eq hstep).1]
    refine ⟨hI, fun v hv => ?_⟩
    rw [System.collect_pc hstep]
    exact hcodes v hv

end Authoring
end

/-! ## Panics -/

/-- The worker is about to panic in the body of a call, or has done so. -/
def Worker.Pc.AtFault [Ed25519] : Worker.Pc → Prop
  | .executing _ (.fault _) _ => True
  | .validating _ (.fault _) => True
  | .dispatchPanicked _ => True
  | _ => False

def Master.Pc.AtFault [Ed25519] : Master.Pc → Prop
  | .executingOrphan _ _ (.fault _) _ => True
  | .dispatchPanicked _ => True
  | _ => False

section
variable [Ed25519] {exec : Executor} {s s' : System} {w : ThreadId} {why : Panic}

theorem Worker.Caller.resume_ne (caller : Caller) (outcome : ExecutionOutcome) :
    caller.resume outcome ≠ .dispatchPanicked why := by
  cases caller <;> cases outcome <;> nofun

theorem Worker.Step.atFault {wk : Worker} {state : StateMap} {m : Move}
    (h : Worker.Step w wk state m) (hm : m.worker.pc = .dispatchPanicked why) : wk.pc.AtFault := by
  cases h with
  | fault hpc => rw [hpc]; trivial
  | validateFault hpc => rw [hpc]; trivial
  | access hpc hkey =>
    unfold Worker.access at hm
    split at hm
    · cases hm
    · split at hm <;> cases hm
  | accessRecheck hpc hkey =>
    unfold Worker.accessRecheck at hm
    split at hm <;> cases hm
  | settle hres =>
    unfold Worker.executeOrForward at hm
    dsimp only at hm
    split at hm
    · repeat' split at hm
      all_goals first | exact absurd hm (Caller.resume_ne _ _) | cases hm
    · split at hm <;> exact absurd hm (Caller.resume_ne _ _)
  | _ => cases hm

theorem System.atFault_of_masterStep (h : s.masterStep exec = some s')
    (hs' : s'.master.pc = .dispatchPanicked why) : s.master.pc.AtFault := by
  unfold masterStep at h
  split at h
  · rename_i effect todo htodo
    obtain rfl := Option.some.inj h
    cases effect with
    | panic _ => cases hs'
    | _ => rw [show s.master.pc = .dispatchPanicked why from hs']; trivial
  · repeat' split at h
    all_goals first
      | (rename_i hpc; rw [hpc]; trivial)
      | cases h; cases hs'
      | (rename_i return_to hpc; cases h; cases return_to <;> cases hs')

theorem System.collect_pc_ne (h : s.collect w = some s') : s'.master.pc ≠ .dispatchPanicked why := by
  intro hs'
  unfold collect at h
  split at h
  · dsimp only at h
    split at h <;> obtain rfl := Option.some.inj h <;> cases hs'
  · dsimp only at h
    split at h <;> obtain rfl := Option.some.inj h <;> cases hs'
  · cases h

/-- No thread is about to panic in the body of a call. -/
structure System.NoFault (exec : Executor) (s : System) : Prop where
  workers : ∀ w ∈ exec.workers, ¬ (s.worker w).pc.AtFault
  master : ¬ s.master.pc.AtFault

theorem System.NoFault.not_panicked (h : s.NoFault exec) : ¬ s.DispatchPanicked exec := by
  rintro (⟨w, hw, why, hpc⟩ | ⟨-, why, hpc⟩)
  · exact h.workers w hw (by rw [hpc]; trivial)
  · exact h.master (by rw [hpc]; trivial)

/-- **Where no thread has come to a fault, none panics in the next step.** -/
theorem System.NoFault.step (h : s.NoFault exec) (hs : s.Threads exec s') :
    ¬ s'.DispatchPanicked exec := by
  rintro (⟨v, hv, why, hpc⟩ | ⟨-, why, hpc⟩)
  · refine h.workers v hv ?_
    cases hs with
    | @worker w m hw hstep =>
      by_cases hvw : v = w
      · subst hvw
        rw [applyMove_pc_self] at hpc
        exact hstep.atFault hpc
      · rw [applyMove_pc_other hvw] at hpc
        rw [hpc]
        trivial
    | master hstep => rw [← masterStep_pc hstep, hpc]; trivial
    | collect hw hstep => rw [← collect_pc hstep, hpc]; trivial
  · refine h.master ?_
    cases hs with
    | worker hw hstep => rw [show s.master.pc = .dispatchPanicked why from hpc]; trivial
    | master hstep => exact atFault_of_masterStep hstep hpc
    | collect hw hstep => exact absurd hpc (collect_pc_ne hstep)

end
end SonicChain
