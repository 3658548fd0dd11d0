import SonicChain.NodeLife
import SonicChain.Progress

/-! # What a worker comes to when it is left alone

A worker that takes its own steps, one after the other, comes to wait: at `park`, or for a
message of the master that has not been sent (`Worker.waits`).  Each message of the master
keeps it busy for a while only, because the body of every call ends, and so does the
commit of its cache.
-/

namespace SonicChain
open Worker Transition

section
variable [Ed25519]

/-- The threads act; `park` waits for its token. -/
def System.Acts (s : System) : Action → Prop
  | .call _ => False
  | .worker w => (s.worker w).pc = .park → (s.worker w).token = true
  | _ => True

/-- The worker acts, and does not look at the queues of the others. -/
def System.Alone (w : ThreadId) (s : System) : Action → Prop
  | .worker v => v = w ∧ ((s.worker w).pc = .park → (s.worker w).token = true)
  | .commit v _ => v = w
  | _ => False

theorem System.Alone.acts {w : ThreadId} {s : System} {a : Action} (h : s.Alone w a) : s.Acts a := by
  cases a with
  | worker v =>
    obtain ⟨rfl, htoken⟩ := h
    exact htoken
  | commit v key => trivial
  | _ => exact h.elim

theorem System.Acts.ofThread {s : System} {a : Action} (h : s.Acts a) : a.OfThread := by
  cases a with
  | call c => exact h.elim
  | _ => trivial

/-- The worker has nothing to do, given its token and its queue. -/
def Worker.Pc.Waits (token : Bool) (inbox : List MessagePayload) : Pc → Prop
  | .park => token = false
  | .terminated => True
  | .panicked _ => True
  | .dispatchPanicked _ => True
  | pc => pc.Receives ∧ inbox = []

def Worker.Waits (wk : Worker) : Prop := wk.pc.Waits wk.token wk.fromMaster

/-- How long the worker is busy at its control point, without taking a message. -/
def Worker.Pc.rank : Pc → Nat
  | .sendValidationReport => 2
  | .waitFinalizeSetup => 0
  | .recvTask => 0
  | .depleteMasterQueue _ _ => 0
  | .pollMaster => 0
  | .runValidate => 0
  | _ => 1

theorem Worker.Pc.rank_le (pc : Pc) : pc.rank ≤ 2 := by
  unfold rank
  split <;> omega

/-- How long the worker is busy. -/
def Worker.backlog (wk : Worker) : Nat := 3 * wk.fromMaster.length + wk.pc.rank

/-- A worker that looks again at an entry does so for an access. -/
def Worker.Pc.Keyed : Pc → Prop
  | .recheck _ code _ _ => accessKey code ≠ none
  | _ => True

/-! ## Moves -/

section
variable {id w : ThreadId} {wk : Worker} {state : StateMap} {m : Move} {exec : Executor}
  {s s' : System} {a : Action} {P : System → Prop}

theorem Worker.Step.keyed (h : Step id wk state m) : m.worker.pc.Keyed := by
  cases h with
  | access hpc hkey =>
    unfold Worker.access
    split
    · trivial
    · split
      · trivial
      · show accessKey _ ≠ none
        rw [hkey]
        exact Option.some_ne_none _
  | accessRecheck hpc hkey =>
    unfold Worker.accessRecheck
    split <;> trivial
  | @settle job result hres =>
    unfold executeOrForward
    dsimp only
    repeat' split
    all_goals first
      | trivial
      | (cases hcaller : job.caller <;> trivial)
  | _ => trivial

/-- The others and the master see nothing but what the worker forwards. -/
theorem System.applyMove_worker (s : System) (w : ThreadId) (m : Move) (v : ThreadId) :
    ∃ queues, (s.applyMove w m).worker v =
      { Function.update s.worker w m.worker v with fromOthers := queues } := by
  show ∃ queues, deliver w m.forward (Function.update s.worker w m.worker) v = _
  cases m.forward with
  | none => exact ⟨_, rfl⟩
  | some message =>
    obtain ⟨target, payload⟩ := message
    dsimp only [deliver]
    by_cases hv : v = target
    · subst hv
      rw [Function.update_self]
      exact ⟨_, rfl⟩
    · rw [Function.update_of_ne hv]
      exact ⟨_, rfl⟩

theorem System.applyMove_self (s : System) (w : ThreadId) (m : Move) :
    ∃ queues, (s.applyMove w m).worker w = { m.worker with fromOthers := queues } := by
  have h := s.applyMove_worker w m w
  rwa [Function.update_self] at h

theorem System.applyMove_other (s : System) (m : Move) {v : ThreadId} (hv : v ≠ w) :
    ∃ queues, (s.applyMove w m).worker v = { s.worker v with fromOthers := queues } := by
  have h := s.applyMove_worker w m v
  rwa [Function.update_of_ne hv] at h

/-- Only a receive takes a message out of the queues of the others. -/
theorem Worker.step_fromOthers (h : Worker.step id wk state = some m) :
    m.worker.fromOthers = wk.fromOthers := by
  have hstep := Step.of_step h
  cases hstep with
  | access hpc hkey =>
    unfold Worker.access
    split
    · rfl
    · split <;> rfl
  | accessRecheck hpc hkey =>
    unfold Worker.accessRecheck
    split <;> rfl
  | settle hres =>
    unfold executeOrForward
    dsimp only
    repeat' split
    all_goals rfl
  | takeForwarded hpc hq =>
    rw [Worker.step, hpc] at h
    cases h
  | _ => rfl

theorem Worker.commit_fromOthers {key : Key} (h : Worker.commit id wk state key = some m) :
    m.worker.fromOthers = wk.fromOthers := by
  unfold Worker.commit at h
  split at h
  · split at h
    · split at h
      · obtain rfl := Option.some.inj h
        rfl
      · obtain rfl := Option.some.inj h
        rfl
    · cases h
  · cases h

/-- A worker alone makes moves of its own. -/
theorem System.Alone.move (ha : s.Alone w a) (hs : s.step exec a = some s') :
    ∃ m, Step w (s.worker w) s.state m ∧ m.worker.fromOthers = (s.worker w).fromOthers ∧
      s' = s.applyMove w m := by
  cases a with
  | worker v =>
    obtain ⟨rfl, -⟩ := ha
    rw [step] at hs
    split at hs
    · obtain ⟨m, hm, rfl⟩ := Option.map_eq_some_iff.mp hs
      exact ⟨m, .of_step hm, step_fromOthers hm, rfl⟩
    · cases hs
  | commit v key =>
    obtain rfl : v = w := ha
    rw [step] at hs
    split at hs
    · obtain ⟨m, hm, rfl⟩ := Option.map_eq_some_iff.mp hs
      exact ⟨m, .of_commit hm, commit_fromOthers hm, rfl⟩
    · cases hs
  | _ => exact ha.elim

theorem leads_of_step (hw : w ∈ exec.workers) (hpark : (s.worker w).pc ≠ .park)
    (hm : Worker.step w (s.worker w) s.state = some m)
    (h : Leads (System.step exec) (System.Alone w) P (s.applyMove w m)) :
    Leads (System.step exec) (System.Alone w) P s := by
  have ha : s.Alone w (.worker w) := ⟨rfl, fun hpc => absurd hpc hpark⟩
  refine .next ha ?_ h
  rw [System.step, if_pos hw, hm]
  rfl

theorem leads_of_commit (hw : w ∈ exec.workers) {key : Key}
    (hm : Worker.commit w (s.worker w) s.state key = some m)
    (h : Leads (System.step exec) (System.Alone w) P (s.applyMove w m)) :
    Leads (System.step exec) (System.Alone w) P s := by
  have ha : s.Alone w (.commit w key) := rfl
  refine .next ha ?_ h
  rw [System.step, if_pos hw, hm]
  rfl

end

/-! ## Dispatches -/

/-- The worker has nothing to do, or no more than this. -/
def Worker.Idles (n : Nat) (wk : Worker) : Prop := wk.Waits ∨ wk.backlog ≤ n

section
variable {id w : ThreadId} {wk : Worker} {state : StateMap} {m : Move} {exec : Executor}
  {s : System} {job : Job} {code : Storage (Except DispatchError Unit)} {cache : Cache} {key : Key}
  {P : System → Prop} {n : Nat}

theorem Worker.Idles.of_panicked {why : Panic} (h : wk.pc = .panicked why) : wk.Idles n := by
  left
  rw [Waits, h]
  trivial

theorem Worker.Idles.of_dispatchPanicked {why : Panic} (h : wk.pc = .dispatchPanicked why) :
    wk.Idles n := by
  left
  rw [Waits, h]
  trivial

/-- What is in the queues of the others is none of a worker's business. -/
theorem Worker.Idles.applyMove (h : m.worker.Idles n) : ((s.applyMove w m).worker w).Idles n := by
  obtain ⟨queues, hself⟩ := s.applyMove_self w m
  rw [hself]
  exact h

theorem executeOrForward_idles {result : RuntimeDispatchResult} :
    (executeOrForward id wk state job result).worker.Idles (3 * wk.fromMaster.length) := by
  have hresume : ∀ outcome, (job.caller.resume outcome).rank = 0 := by
    intro outcome
    cases job.caller <;> cases outcome <;> rfl
  have hidles : ∀ outcome (wk' : Worker), wk'.pc = job.caller.resume outcome →
      wk'.fromMaster = wk.fromMaster → wk'.Idles (3 * wk.fromMaster.length) := by
    intro outcome wk' hpc hqueue
    right
    rw [backlog, hpc, hresume, hqueue]
    omega
  unfold executeOrForward
  dsimp only
  repeat' split
  all_goals first
    | exact .of_panicked rfl
    | exact hidles _ _ rfl rfl

theorem step_of_accessKey (hpc : wk.pc = .executing job code cache)
    (hkey : accessKey code = some key) :
    Worker.step id wk state = some (access id wk state job code cache key) := by
  cases code with
  | read k next =>
    obtain rfl := Option.some.inj hkey
    rw [Worker.step, hpc]
  | write k value next =>
    obtain rfl := Option.some.inj hkey
    rw [Worker.step, hpc]
  | done result => cases hkey
  | fault why => cases hkey

/-- The code goes on with an answer. -/
def System.Answered (w : ThreadId) (s : System) (job : Job)
    (code : Storage (Except DispatchError Unit)) (cache : Cache) (s' : System) : Prop :=
  (s'.worker w).fromMaster = (s.worker w).fromMaster ∧ ∃ outcome, (s'.worker w).pc =
    .executing job (answer code cache outcome).1 (answer code cache outcome).2

theorem System.Answered.of_answered {outcome : Except ThreadId Value} {events : List Event} :
    s.Answered w job code cache (s.applyMove w
      ((s.worker w).answered state job code cache outcome events)) := by
  obtain ⟨queues, hself⟩ := s.applyMove_self w
    ((s.worker w).answered state job code cache outcome events)
  rw [Answered, hself]
  exact ⟨rfl, outcome, rfl⟩

/-- **The second look at an entry answers the code**, or panics. -/
theorem recheck_leads {branch : TaintState.Recheck} (hw : w ∈ exec.workers)
    (hpc : (s.worker w).pc = .recheck job code cache branch) (hkey : accessKey code = some key) :
    Leads (System.step exec) (System.Alone w) (fun s' => s.Answered w job code cache s' ∨
      ∃ why, (s'.worker w).pc = .panicked why) s := by
  refine leads_of_step hw (fun h => by cases hpc.symm.trans h) (by rw [Worker.step, hpc]; dsimp only; rw [hkey]) (.now ?_)
  unfold Worker.accessRecheck
  split
  · exact .inl .of_answered
  · right
    obtain ⟨queues, hself⟩ := s.applyMove_self w ((s.worker w).panic s.state _)
    rw [hself]
    exact ⟨_, rfl⟩

/-- **An access answers the code**, or panics. -/
theorem access_leads (hw : w ∈ exec.workers) (hpc : (s.worker w).pc = .executing job code cache)
    (hkey : accessKey code = some key) :
    Leads (System.step exec) (System.Alone w) (fun s' => s.Answered w job code cache s' ∨
      ∃ why, (s'.worker w).pc = .panicked why) s := by
  refine leads_of_step hw (fun h => by cases hpc.symm.trans h) (step_of_accessKey hpc hkey) ?_
  unfold Worker.access
  split
  · exact .now (.inl .of_answered)
  · split
    · exact .now (.inl .of_answered)
    · rename_i branch _
      obtain ⟨queues, hself⟩ := s.applyMove_self w
        (quiet { s.worker w with pc := .recheck job code cache branch } s.state)
      refine (recheck_leads hw (by rw [hself]; rfl) hkey).mono fun s' h' => h'.imp_left ?_
      rintro ⟨hqueue, hanswer⟩
      rw [hself] at hqueue
      exact ⟨hqueue, hanswer⟩

/-- The worker takes a step, but no message, and goes on from there. -/
theorem idles_of_step (hw : w ∈ exec.workers) (hpark : (s.worker w).pc ≠ .park)
    (hm : Worker.step w (s.worker w) s.state = some m)
    (hqueue : m.worker.fromMaster = (s.worker w).fromMaster)
    (h : ∀ s' : System, (s'.worker w).pc = m.worker.pc → Leads (System.step exec) (System.Alone w)
      (fun s'' => (s''.worker w).Idles (3 * (s'.worker w).fromMaster.length)) s') :
    Leads (System.step exec) (System.Alone w)
      (fun s' => (s'.worker w).Idles (3 * (s.worker w).fromMaster.length)) s := by
  obtain ⟨queues, hself⟩ := s.applyMove_self w m
  have hsame : ((s.applyMove w m).worker w).fromMaster = (s.worker w).fromMaster := by
    rw [hself]
    exact hqueue
  have hrest := h (s.applyMove w m) (by rw [hself])
  rw [hsame] at hrest
  exact leads_of_step hw hpark hm hrest

/-- **The commit of a cache ends.** -/
theorem commit_idles (hw : w ∈ exec.workers) (hpc : (s.worker w).pc = .committing job cache) :
    Leads (System.step exec) (System.Alone w)
      (fun s' => (s'.worker w).Idles (3 * (s.worker w).fromMaster.length)) s := by
  induction hn : cache.keys.card using Nat.strongRecOn generalizing s cache with
  | ind n ih =>
    by_cases hempty : cache = ∅
    · have hm : Worker.step w (s.worker w) s.state = some (executeOrForward w (s.worker w) s.state
          job (toRuntimeDispatchResult (.ok ()))) := by
        rw [Worker.step, hpc]
        exact if_pos hempty
      exact leads_of_step hw (fun h => by cases hpc.symm.trans h) hm (.now executeOrForward_idles.applyMove)
    · obtain ⟨key, value, hkey⟩ : ∃ key value, cache.lookup key = some value := by
        by_contra hnone
        refine hempty (Finmap.ext_lookup fun key => ?_)
        rw [Finmap.lookup_empty]
        exact Option.eq_none_iff_forall_ne_some.mpr fun value h => hnone ⟨key, value, h⟩
      cases hcommit : ConcurrentRuntime.commitEntry w s.state key value with
      | error why =>
        have hm : Worker.commit w (s.worker w) s.state key =
            some ((s.worker w).panic s.state why) := by
          rw [Worker.commit, hpc]
          simp only [hkey, hcommit]
        have hidles : ((s.worker w).panic s.state why).worker.Idles
            (3 * (s.worker w).fromMaster.length) := .of_panicked rfl
        exact leads_of_commit hw hm (.now hidles.applyMove)
      | ok state' =>
        have hm : Worker.commit w (s.worker w) s.state key =
            some ⟨{ s.worker w with pc := .committing job (cache.erase key) }, state', none,
              [.stored (some w) key]⟩ := by
          rw [Worker.commit, hpc]
          simp only [hkey, hcommit]
        have hlt : (cache.erase key).keys.card < n := by
          rw [Finmap.keys_erase, ← hn]
          refine Finset.card_erase_lt_of_mem (Finmap.mem_keys.mpr ?_)
          rw [← Finmap.lookup_isSome, hkey]
          rfl
        obtain ⟨queues, hself⟩ := s.applyMove_self w
          ⟨{ s.worker w with pc := .committing job (cache.erase key) }, state', none,
            [.stored (some w) key]⟩
        have hrest := ih _ hlt (s := s.applyMove w _) (by rw [hself]) rfl
        rw [hself] at hrest
        exact leads_of_commit hw hm hrest

/-- **A dispatch ends.** -/
theorem executing_idles (hw : w ∈ exec.workers) (hpc : (s.worker w).pc = .executing job code cache) :
    Leads (System.step exec) (System.Alone w)
      (fun s' => (s'.worker w).Idles (3 * (s.worker w).fromMaster.length)) s := by
  induction code generalizing s cache with
  | done result =>
    cases result with
    | error e =>
      have hm : Worker.step w (s.worker w) s.state = some (executeOrForward w (s.worker w) s.state
          job (toRuntimeDispatchResult (.error e))) := by
        rw [Worker.step, hpc]
      exact leads_of_step hw (fun h => by cases hpc.symm.trans h) hm (.now executeOrForward_idles.applyMove)
    | ok u =>
      have hm : Worker.step w (s.worker w) s.state =
          some (quiet { s.worker w with pc := .committing job cache } s.state) := by
        rw [Worker.step, hpc]
      exact idles_of_step hw (fun h => by cases hpc.symm.trans h) hm rfl fun s' hpc' =>
        commit_idles hw hpc'
  | fault why =>
    have hm : Worker.step w (s.worker w) s.state =
        some (quiet { s.worker w with pc := .dispatchPanicked why } s.state) := by
      rw [Worker.step, hpc]
    have hidles : (quiet { s.worker w with pc := .dispatchPanicked why } s.state).worker.Idles
        (3 * (s.worker w).fromMaster.length) := .of_dispatchPanicked rfl
    exact leads_of_step hw (fun h => by cases hpc.symm.trans h) hm (.now hidles.applyMove)
  | read key next ih =>
    refine (access_leads hw hpc rfl).bind fun s' h' => ?_
    rcases h' with ⟨hqueue, outcome, hpc'⟩ | ⟨why, hpc'⟩
    · rw [← hqueue]
      exact ih outcome hpc'
    · exact .now (.of_panicked hpc')
  | write key value next ih =>
    refine (access_leads hw hpc rfl).bind fun s' h' => ?_
    rcases h' with ⟨hqueue, outcome, hpc'⟩ | ⟨why, hpc'⟩
    · rw [← hqueue]
      cases outcome with
      | ok v => exact ih (.ok ()) hpc'
      | error owner => exact ih (.error owner) hpc'
    · exact .now (.of_panicked hpc')

/-- **A dispatch in validation ends.** -/
theorem validating_idles {tx : Transaction} (hw : w ∈ exec.workers)
    (hpc : (s.worker w).pc = .validating tx code) :
    Leads (System.step exec) (System.Alone w)
      (fun s' => (s'.worker w).Idles (3 * (s.worker w).fromMaster.length)) s := by
  induction code generalizing s with
  | done result =>
    have hidles : ∀ m, Worker.step w (s.worker w) s.state = some m →
        m.worker.Idles (3 * (s.worker w).fromMaster.length) := by
      intro m hm
      rw [Worker.step, hpc] at hm
      dsimp only at hm
      split at hm
      · obtain rfl := Option.some.inj hm
        right
        show 3 * (s.worker w).fromMaster.length + 0 ≤ _
        omega
      · obtain rfl := Option.some.inj hm
        exact .of_panicked rfl
    have hsome : ∃ m, Worker.step w (s.worker w) s.state = some m := by
      rw [Worker.step, hpc]
      dsimp only
      split
      · exact ⟨_, rfl⟩
      · exact ⟨_, rfl⟩
    obtain ⟨m, hm⟩ := hsome
    exact leads_of_step hw (fun h => by cases hpc.symm.trans h) hm (.now (hidles m hm).applyMove)
  | fault why =>
    have hm : Worker.step w (s.worker w) s.state =
        some (quiet { s.worker w with pc := .dispatchPanicked why } s.state) := by
      rw [Worker.step, hpc]
    have hidles : (quiet { s.worker w with pc := .dispatchPanicked why } s.state).worker.Idles
        (3 * (s.worker w).fromMaster.length) := .of_dispatchPanicked rfl
    exact leads_of_step hw (fun h => by cases hpc.symm.trans h) hm (.now hidles.applyMove)
  | read key next ih =>
    have hm : Worker.step w (s.worker w) s.state = some (quiet { s.worker w with
        pc := .validating tx (next (.ok (SequentialRuntime.read s.state key))) } s.state) := by
      rw [Worker.step, hpc]
    exact idles_of_step hw (fun h => by cases hpc.symm.trans h) hm rfl fun s' hpc' => ih _ hpc'
  | write key value next ih =>
    have hm : Worker.step w (s.worker w) s.state = some ⟨{ s.worker w with
        pc := .validating tx (next (.ok ())) }, SequentialRuntime.write s.state key value, none,
          [.stored (some w) key]⟩ := by
      rw [Worker.step, hpc]
    exact idles_of_step hw (fun h => by cases hpc.symm.trans h) hm rfl fun s' hpc' => ih _ hpc'

/-! ## Turns -/

/-- A worker that has a message of the master takes it, or panics over it. -/
theorem step_of_receives (hpc : wk.pc.Receives) {payload : MessagePayload}
    {rest : List MessagePayload} (hq : wk.fromMaster = payload :: rest) :
    ∃ m, Worker.step id wk state = some m ∧
      ((∃ why, m.worker.pc = .panicked why) ∨ m.worker.fromMaster = rest) := by
  cases hpc' : wk.pc with
  | waitFinalizeSetup =>
    cases payload <;> simp only [Worker.step, hpc', hq] <;> refine ⟨_, rfl, ?_⟩
    case finalizeSetup => exact .inr rfl
    all_goals exact .inl ⟨_, rfl⟩
  | recvTask =>
    cases payload
    case task t =>
      cases t <;> simp only [Worker.step, hpc', hq] <;> exact ⟨_, rfl, .inr rfl⟩
    all_goals simp only [Worker.step, hpc', hq]; refine ⟨_, rfl, ?_⟩
    case terminate => exact .inr rfl
    all_goals exact .inl ⟨_, rfl⟩
  | depleteMasterQueue e f =>
    cases payload <;> simp only [Worker.step, hpc', hq] <;> refine ⟨_, rfl, ?_⟩
    case transaction => exact .inr rfl
    case transactionDistributionDone => exact .inr rfl
    all_goals exact .inl ⟨_, rfl⟩
  | pollMaster =>
    cases payload <;> simp only [Worker.step, hpc', hq] <;> refine ⟨_, rfl, ?_⟩
    case taskDone => exact .inr rfl
    all_goals exact .inl ⟨_, rfl⟩
  | runValidate =>
    cases payload
    case transaction tx =>
      simp only [Worker.step, hpc', hq]
      split
      · exact ⟨_, rfl, .inr rfl⟩
      · exact ⟨_, rfl, .inl ⟨_, rfl⟩⟩
    all_goals simp only [Worker.step, hpc', hq]; refine ⟨_, rfl, ?_⟩
    case transactionDistributionDone => exact .inr rfl
    all_goals exact .inl ⟨_, rfl⟩
  | _ =>
    rw [hpc'] at hpc
    exact hpc.elim

/-- The worker takes a step that brings it on. -/
theorem shorter_of_step (hw : w ∈ exec.workers) (hpark : (s.worker w).pc ≠ .park)
    (hm : Worker.step w (s.worker w) s.state = some m)
    (hidles : m.worker.Waits ∨ m.worker.backlog < (s.worker w).backlog) :
    Leads (System.step exec) (System.Alone w) (fun s' => (s'.worker w).Waits ∨
      (s'.worker w).backlog < (s.worker w).backlog) s := by
  obtain ⟨queues, hself⟩ := s.applyMove_self w m
  refine leads_of_step hw hpark hm (.now ?_)
  rw [hself]
  exact hidles

/-- **A worker that has something to do has less to do after a while.** -/
theorem shorter_of_busy (hw : w ∈ exec.workers) (hkeyed : (s.worker w).pc.Keyed)
    (hbusy : ¬ (s.worker w).Waits) :
    Leads (System.step exec) (System.Alone w) (fun s' => (s'.worker w).Waits ∨
      (s'.worker w).backlog < (s.worker w).backlog) s := by
  have hreceives : (s.worker w).pc.Receives → ((s.worker w).fromMaster = [] → (s.worker w).Waits) →
      Leads (System.step exec) (System.Alone w) (fun s' => (s'.worker w).Waits ∨
        (s'.worker w).backlog < (s.worker w).backlog) s := by
    intro hpc hwaits
    cases hq : (s.worker w).fromMaster with
    | nil => exact absurd (hwaits hq) hbusy
    | cons payload rest =>
      obtain ⟨m, hm, ⟨why, hpanic⟩ | hrest⟩ := step_of_receives hpc hq
      · refine shorter_of_step hw (fun h => by rw [h] at hpc; exact hpc) hm (.inl ?_)
        rw [Waits, hpanic]
        trivial
      · refine shorter_of_step hw (fun h => by rw [h] at hpc; exact hpc) hm (.inr ?_)
        have hrank := m.worker.pc.rank_le
        rw [backlog, backlog, hrest, hq, List.length_cons]
        omega
  -- What ends leaves less than there was while it lasted.
  have hends : (s.worker w).pc.rank = 1 →
      Leads (System.step exec) (System.Alone w)
        (fun s' => (s'.worker w).Idles (3 * (s.worker w).fromMaster.length)) s →
      Leads (System.step exec) (System.Alone w) (fun s' => (s'.worker w).Waits ∨
        (s'.worker w).backlog < (s.worker w).backlog) s := by
    intro hrank h
    refine h.mono fun s' h' => h'.imp_right fun hle => ?_
    rw [backlog, backlog, hrank]
    rw [backlog] at hle
    omega
  cases hpc : (s.worker w).pc with
  | waitFinalizeSetup | recvTask | depleteMasterQueue | pollMaster | runValidate =>
    refine hreceives (by rw [hpc]; trivial) fun hq => ?_
    rw [Waits, hpc]
    exact ⟨trivial, hq⟩
  | park =>
    have htoken : (s.worker w).token = true := by
      rw [Waits, hpc] at hbusy
      exact eq_true_of_ne_false hbusy
    have hm : Worker.step w (s.worker w) s.state =
        some (quiet { s.worker w with token := false, pc := .recvTask } s.state) := by
      rw [Worker.step, hpc]
    have ha : s.Alone w (.worker w) := ⟨rfl, fun _ => htoken⟩
    have hs : s.step exec (.worker w) = some (s.applyMove w
        (quiet { s.worker w with token := false, pc := .recvTask } s.state)) := by
      rw [System.step, if_pos hw, hm]
      rfl
    refine .next ha hs (.now (.inr ?_))
    obtain ⟨queues, hself⟩ := s.applyMove_self w
      (quiet { s.worker w with token := false, pc := .recvTask } s.state)
    rw [hself, backlog, backlog, hpc]
    exact Nat.lt_succ_self _
  | sendReport e f =>
    have hm : ∃ m, Worker.step w (s.worker w) s.state = some m ∧ m.worker.pc = .pollMaster ∧
        m.worker.fromMaster = (s.worker w).fromMaster := by
      rw [Worker.step, hpc]
      exact ⟨_, rfl, rfl, rfl⟩
    obtain ⟨m, hm, hpc', hqueue⟩ := hm
    refine shorter_of_step hw (fun h => by cases hpc.symm.trans h) hm (.inr ?_)
    rw [backlog, backlog, hpc, hpc', hqueue]
    exact Nat.lt_succ_self _
  | pollOthers =>
    have hm : Worker.step w (s.worker w) s.state =
        some (quiet { s.worker w with pc := .pollMaster } s.state) := by
      rw [Worker.step, hpc]
    refine shorter_of_step hw (fun h => by cases hpc.symm.trans h) hm (.inr ?_)
    rw [backlog, backlog, hpc]
    exact Nat.lt_succ_self _
  | sendValidationReport =>
    have hm : ∃ m, Worker.step w (s.worker w) s.state = some m ∧ m.worker.pc = .park ∧
        m.worker.fromMaster = (s.worker w).fromMaster := by
      rw [Worker.step, hpc]
      exact ⟨_, rfl, rfl, rfl⟩
    obtain ⟨m, hm, hpc', hqueue⟩ := hm
    refine shorter_of_step hw (fun h => by cases hpc.symm.trans h) hm (.inr ?_)
    rw [backlog, backlog, hpc, hpc', hqueue]
    exact Nat.lt_succ_self _
  | executing job code cache => exact hends (by rw [hpc]; rfl) (executing_idles hw hpc)
  | committing job cache => exact hends (by rw [hpc]; rfl) (commit_idles hw hpc)
  | validating tx code => exact hends (by rw [hpc]; rfl) (validating_idles hw hpc)
  | recheck job code cache branch =>
    rw [hpc] at hkeyed
    obtain ⟨key, hkey⟩ := Option.ne_none_iff_exists'.mp hkeyed
    refine hends (by rw [hpc]; rfl) ((recheck_leads hw hpc hkey).bind fun s' h' => ?_)
    rcases h' with ⟨hqueue, outcome, hpc'⟩ | ⟨why, hpc'⟩
    · rw [← hqueue]
      exact executing_idles hw hpc'
    · exact .now (.of_panicked hpc')
  | terminated | panicked | dispatchPanicked =>
    refine absurd ?_ hbusy
    rw [Waits, hpc]
    trivial

/-- **A worker that is left alone comes to wait.** -/
theorem worker_waits (hw : w ∈ exec.workers) (hkeyed : (s.worker w).pc.Keyed) :
    Leads (System.step exec) (System.Alone w) (fun s' => (s'.worker w).Waits) s := by
  refine Leads.of_measure (I := fun s => (s.worker w).pc.Keyed) (fun s => (s.worker w).backlog)
    (fun s hkeyed => ?_) hkeyed
  by_cases hbusy : (s.worker w).Waits
  · exact .now (.inl hbusy)
  · refine ((shorter_of_busy hw hkeyed hbusy).along (I := fun s => (s.worker w).pc.Keyed)
      (fun s a s' ha _ hs => ?_) hkeyed).mono fun s' h' => ?_
    · obtain ⟨m, hm, -, rfl⟩ := System.Alone.move ha hs
      obtain ⟨queues, hself⟩ := s.applyMove_self w m
      rw [hself]
      exact hm.keyed
    · exact h'.2.imp_right fun hlt => ⟨h'.1, hlt⟩

end
end
end SonicChain
