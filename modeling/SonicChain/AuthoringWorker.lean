import SonicChain.Authoring

/-! # The workers keep the protocol

Every step of a worker keeps `Authoring` (`Authoring.worker_step`), unless the body
of a call panics.  There are many kinds of step, but few things that a step can do to
the protocol, and there is one lemma for each:

* `turn`: the worker goes on in its program and nothing else changes, as when it is
  woken, receives its task, or finds the queues of the others empty;
* `take`: it takes a transaction out of a queue and begins its dispatch;
* `inside`: it makes an access inside a dispatch;
* `settle`: a dispatch returns and its transaction stays with the worker, or goes to
  the master;
* `forward`: a dispatch returns and its transaction goes to the owner of the key that
  was refused;
* `report`: it has come to the end of its orders and makes its report.

What the master has to send counts as part of the worker's queue throughout, so that
the lemmas need not know how far the master has come.  A step of one worker leaves
the invariants of the others alone, up to what it forwards to them
(`WorkerInv.of_other`, `WorkerInv.deliver`): the keys of another worker cannot change
under it, since a key that is owned stays with its owner.
-/

namespace SonicChain
open Worker

variable [Ed25519]

/-! ## Where a worker can stand

`Stand` read backwards: what is known of a worker at a given control point.  In all of
them the orders still to come tell how much of its share the worker has behind it.
-/

namespace Stand
variable {workers : List ThreadId} {pool : Pool} {w : ThreadId} {fresh : Prop} {pc pc' : Pc}
  {toOthers : List ThreadId} {inbox : List MessagePayload} {ran : List Transaction}
  {reports : List (Nat × Nat)} {e f : Nat} {job : Job}

theorem of_setup (h : Stand workers pool w fresh .waitFinalizeSetup toOthers inbox ran reports) :
    inbox = .finalizeSetup workers :: .task .authoring :: orders (pool.share w) ∧ ran = [] ∧
      reports = [] := by
  cases h with
  | setup => exact ⟨rfl, rfl, rfl⟩
  | draining hpc => simp at hpc
  | polling hpc => simp at hpc
  | zeroth hpc => cases hpc
  | first hpc => cases hpc
  | second hpc => cases hpc

theorem of_park (h : Stand workers pool w fresh .park toOthers inbox ran reports) :
    toOthers = workers ∧ inbox = .task .authoring :: orders (pool.share w) ∧
      Early pool w fresh ran ∧ reports = [] := by
  cases h with
  | park hearly => exact ⟨rfl, rfl, hearly, rfl⟩
  | draining hpc => simp at hpc
  | polling hpc => simp at hpc
  | zeroth hpc => cases hpc
  | first hpc => cases hpc
  | second hpc => cases hpc

theorem of_recvTask (h : Stand workers pool w fresh .recvTask toOthers inbox ran reports) :
    toOthers = workers ∧ inbox = .task .authoring :: orders (pool.share w) ∧
      Early pool w fresh ran ∧ reports = [] := by
  cases h with
  | recvTask hearly => exact ⟨rfl, rfl, hearly, rfl⟩
  | draining hpc => simp at hpc
  | polling hpc => simp at hpc
  | zeroth hpc => cases hpc
  | first hpc => cases hpc
  | second hpc => cases hpc

theorem of_depleting
    (h : Stand workers pool w fresh (.depleteMasterQueue e f) toOthers inbox ran reports) :
    toOthers = workers ∧ reports = [] ∧ ∃ early before rest own, ran = early ++ own ∧
      inbox = orders rest ∧ Early pool w fresh early ∧ pool.share w = before ++ rest ∧
      own.Sublist before ∧ e = own.length ∧ e + f = before.length := by
  cases h with
  | depleting hearly hshare hown he hf =>
    exact ⟨rfl, rfl, _, _, _, _, rfl, rfl, hearly, hshare, hown, he, hf⟩
  | draining hpc => simp at hpc
  | polling hpc => simp at hpc
  | zeroth hpc => cases hpc
  | first hpc => cases hpc
  | second hpc => cases hpc

theorem of_sendReport
    (h : Stand workers pool w fresh (.sendReport e f) toOthers inbox ran reports) :
    toOthers = workers ∧ reports = [] ∧ inbox = [] ∧ ∃ early own, ran = early ++ own ∧
      Early pool w fresh early ∧ own.Sublist (pool.share w) ∧ e = own.length ∧
      e + f = (pool.share w).length := by
  cases h with
  | reporting hearly hown he hf => exact ⟨rfl, rfl, rfl, _, _, rfl, hearly, hown, he, hf⟩
  | draining hpc => simp at hpc
  | polling hpc => simp at hpc
  | zeroth hpc => cases hpc
  | first hpc => cases hpc
  | second hpc => cases hpc

/-- The worker has not yet left its last task: the master has returned from it, has
begun a new one, and may have sent all of it, while the worker is still in the loop
that `TaskDone` ends.  What it runs there, it runs before its new orders. -/
def Lingers (workers : List ThreadId) (pool : Pool) (w : ThreadId) (fresh : Prop)
    (toOthers : List ThreadId) (inbox : List MessagePayload) (ran : List Transaction)
    (reports : List (Nat × Nat)) : Prop :=
  toOthers = workers ∧ inbox = .taskDone :: .task .authoring :: orders (pool.share w) ∧
    Early pool w fresh ran ∧ reports = []

/-- The worker has made its report.  It has then run some of its own transactions, has
forwarded the others or given them to the master, and goes on with what is forwarded
to it: `later`. -/
def Reported (workers : List ThreadId) (pool : Pool) (w : ThreadId) (fresh : Prop)
    (toOthers : List ThreadId) (inbox : List MessagePayload) (ran : List Transaction)
    (reports : List (Nat × Nat)) : Prop :=
  toOthers = workers ∧ inbox = [] ∧ ∃ e f early own later, ran = early ++ own ++ later ∧
    reports = [(e, f)] ∧ Early pool w fresh early ∧ own.Sublist (pool.share w) ∧
    (∀ tx ∈ later, Passed pool w tx) ∧ e = own.length ∧ e + f = (pool.share w).length

theorem of_polling (h : Stand workers pool w fresh pc toOthers inbox ran reports)
    (hpc : pc = .pollMaster ∨ pc = .pollOthers) :
    Lingers workers pool w fresh toOthers inbox ran reports ∨
      Reported workers pool w fresh toOthers inbox ran reports := by
  have hjob : pc.job = none := by rcases hpc with rfl | rfl <;> rfl
  cases h with
  | draining _ hearly => exact .inl ⟨rfl, rfl, hearly, rfl⟩
  | polling _ hearly hown hlater he hf =>
    exact .inr ⟨rfl, rfl, _, _, _, _, _, rfl, rfl, hearly, hown, hlater, he, hf⟩
  | zeroth hexec => rw [hexec.job_eq] at hjob; cases hjob
  | first hexec => rw [hexec.job_eq] at hjob; cases hjob
  | second hexec => rw [hexec.job_eq] at hjob; cases hjob
  | _ => simp at hpc

/-- A worker that polls goes on polling. -/
theorem polls (h : Stand workers pool w fresh pc toOthers inbox ran reports)
    (hpc : pc = .pollMaster ∨ pc = .pollOthers) (hpc' : pc' = .pollMaster ∨ pc' = .pollOthers) :
    Stand workers pool w fresh pc' toOthers inbox ran reports := by
  rcases h.of_polling hpc with ⟨rfl, rfl, hearly, rfl⟩ |
    ⟨rfl, rfl, e, f, early, own, later, rfl, rfl, hearly, hown, hlater, he, hf⟩
  · exact .draining hpc' hearly
  · exact .polling hpc' hearly hown hlater he hf

/-- A worker that has made its report polls, when it is not inside a dispatch. -/
theorem polls_of_reported (h : Stand workers pool w fresh pc toOthers inbox ran reports)
    (hreported : Reported workers pool w fresh toOthers inbox ran reports) (hjob : pc.job = none) :
    pc = .pollMaster ∨ pc = .pollOthers := by
  obtain ⟨-, -, e, f, _, _, _, -, hreports, -⟩ := hreported
  cases h with
  | draining hpc => exact hpc
  | polling hpc => exact hpc
  | second hpc => rw [hpc.job_eq] at hjob; cases hjob
  | _ => cases hreports

/-- A worker inside a dispatch: of a designated transaction, or of a forwarded one. -/
theorem of_executes (h : Stand workers pool w fresh pc toOthers inbox ran reports)
    (hpc : pc.Executes job) :
    toOthers = workers ∧
      ((job.caller = .runAuthor ∧ Passed pool w job.tx ∧ ¬ fresh ∧
          Lingers workers pool w fresh toOthers inbox ran reports) ∨
        (∃ e f early before rest own, job.caller = .depleteMasterQueue e f ∧ ran = early ++ own ∧
          pool.share w = before ++ job.tx :: rest ∧ inbox = orders rest ∧ reports = [] ∧
          Early pool w fresh early ∧ own.Sublist before ∧ e = own.length ∧
          e + f = before.length) ∨
        job.caller = .runAuthor ∧ Passed pool w job.tx ∧
          Reported workers pool w fresh toOthers inbox ran reports) := by
  have outside : pc.job = none → False := fun hn => by rw [hpc.job_eq] at hn; cases hn
  cases h with
  | zeroth hpc' hcaller htx hstale hearly =>
    obtain rfl := hpc.unique hpc'
    exact ⟨rfl, .inl ⟨hcaller, htx, hstale, rfl, rfl, hearly, rfl⟩⟩
  | first hpc' hcaller hearly hshare hown he hf =>
    obtain rfl := hpc.unique hpc'
    exact ⟨rfl, .inr (.inl
      ⟨_, _, _, _, _, _, hcaller, rfl, hshare, rfl, rfl, hearly, hown, he, hf⟩)⟩
  | second hpc' hcaller htx hearly hown hlater he hf =>
    obtain rfl := hpc.unique hpc'
    exact ⟨rfl, .inr (.inr
      ⟨hcaller, htx, rfl, rfl, _, _, _, _, _, rfl, rfl, hearly, hown, hlater, he, hf⟩)⟩
  | draining hpc' => exact (outside (by rcases hpc' with rfl | rfl <;> rfl)).elim
  | polling hpc' => exact (outside (by rcases hpc' with rfl | rfl <;> rfl)).elim
  | _ => cases hpc

/-- A fresh worker has left its last task before it executes anything: nobody
forwards to it, for it owns no key yet. -/
theorem not_draining (h : Stand workers pool w fresh pc toOthers inbox ran reports)
    (hpc : pc.Executes job) (hfresh : fresh) : ¬ Draining inbox := by
  rintro ⟨queue, hdrain⟩
  obtain ⟨-, ⟨-, -, hstale, -⟩ | ⟨e, f, early, before, rest, own, -, -, -, hinbox, -⟩ |
    ⟨-, -, -, hinbox, -⟩⟩ := h.of_executes hpc
  · exact hstale hfresh
  · rw [hinbox] at hdrain
    cases rest <;> cases hdrain
  · rw [hinbox] at hdrain
    cases hdrain

/-- Where a dispatch stands does not matter. -/
theorem inside (h : Stand workers pool w fresh pc toOthers inbox ran reports)
    (hpc : pc.Executes job) (hpc' : pc'.Executes job) :
    Stand workers pool w fresh pc' toOthers inbox ran reports := by
  obtain ⟨rfl, ⟨hcaller, htx, hstale, -, rfl, hearly, rfl⟩ |
    ⟨e, f, early, before, rest, own, hcaller, rfl, hshare, rfl, rfl, hearly, hown, he, hf⟩ |
    ⟨hcaller, htx, -, rfl, e, f, early, own, later, rfl, rfl, hearly, hown, hlater, he, hf⟩⟩ :=
      h.of_executes hpc
  · exact .zeroth hpc' hcaller htx hstale hearly
  · exact .first hpc' hcaller hearly hshare hown he hf
  · exact .second hpc' hcaller htx hearly hown hlater he hf

/-- A worker runs its own transactions, and those forwarded to it: the
former are in its share as they are, the latter in the pool with another status. -/
theorem mem_ran (h : Stand workers pool w fresh pc toOthers inbox ran reports) {tx : Transaction}
    (htx : tx ∈ ran) : tx ∈ pool.share w ∨ Passed pool w tx := by
  have cases_of : ∀ {early own : List Transaction}, Early pool w fresh early →
      own ⊆ pool.share w → tx ∈ early ++ own → tx ∈ pool.share w ∨ Passed pool w tx :=
    fun hearly hown hmem => (List.mem_append.mp hmem).elim
      (fun h => .inr (hearly.passed tx h)) (fun h => .inl (hown h))
  have later_of : ∀ {early own later : List Transaction}, Early pool w fresh early →
      own ⊆ pool.share w → (∀ tx ∈ later, Passed pool w tx) → tx ∈ early ++ own ++ later →
      tx ∈ pool.share w ∨ Passed pool w tx := fun hearly hown hlater hmem =>
    (List.mem_append.mp hmem).elim (cases_of hearly hown) fun h => .inr (hlater tx h)
  cases h with
  | setup => cases htx
  | draining _ hearly => exact .inr (hearly.passed tx htx)
  | zeroth _ _ _ _ hearly => exact .inr (hearly.passed tx htx)
  | park hearly => exact .inr (hearly.passed tx htx)
  | recvTask hearly => exact .inr (hearly.passed tx htx)
  | depleting hearly hshare hown =>
    exact cases_of hearly (fun t ht => hshare ▸ List.mem_append_left _ (hown.subset ht)) htx
  | first _ _ hearly hshare hown =>
    exact cases_of hearly (fun t ht => hshare ▸ List.mem_append_left _ (hown.subset ht)) htx
  | reporting hearly hown => exact cases_of hearly hown.subset htx
  | polling _ hearly hown hlater => exact later_of hearly hown.subset hlater htx
  | second _ _ _ hearly hown hlater => exact later_of hearly hown.subset hlater htx

/-- A worker that stands in authoring does not validate. -/
theorem not_validates (h : Stand workers pool w fresh pc toOthers inbox ran reports) :
    ¬ pc.Validates := by
  cases h with
  | draining hpc | polling hpc => rcases hpc with rfl | rfl <;> exact id
  | zeroth hpc | first hpc | second hpc => cases hpc <;> exact id
  | _ => exact id

theorem not_dispatchPanicked (h : Stand workers pool w fresh pc toOthers inbox ran reports)
    (why : Panic) : pc ≠ .dispatchPanicked why := by
  cases h with
  | draining hpc | polling hpc => rcases hpc with rfl | rfl <;> nofun
  | zeroth hpc | first hpc | second hpc => cases hpc <;> nofun
  | _ => nofun

/-- The dispatch has returned `Ok`, and the worker has run its transaction: a designated
one is counted in the report to come. -/
theorem executed (h : Stand workers pool w fresh pc toOthers inbox ran reports)
    (hpc : pc.Executes job) (success : RuntimeDispatchSuccess) :
    Stand workers pool w fresh (job.caller.resume (.executed success)) toOthers inbox
      (ran ++ [job.tx]) reports := by
  obtain ⟨rfl, ⟨hcaller, htx, hstale, -, rfl, hearly, rfl⟩ |
    ⟨e, f, early, before, rest, own, hcaller, rfl, hshare, rfl, rfl, hearly, hown, he, hf⟩ |
    ⟨hcaller, htx, -, rfl, e, f, early, own, later, rfl, rfl, hearly, hown, hlater, he, hf⟩⟩ :=
      h.of_executes hpc
  · rw [hcaller]
    refine .draining (.inl rfl) ⟨fun tx htx' => ?_, fun hfresh => absurd hfresh hstale⟩
    rcases List.mem_append.mp htx' with htx' | htx'
    · exact hearly.passed tx htx'
    · exact List.mem_singleton.mp htx' ▸ htx
  · rw [hcaller, List.append_assoc]
    have hshare' : pool.share w = (before ++ [job.tx]) ++ rest := by simp [hshare]
    refine .depleting hearly hshare' (hown.append_right _) ?_ ?_
    · simp [he]
    · simp only [List.length_append, List.length_singleton]; omega
  · rw [hcaller, List.append_assoc]
    refine .polling (.inl rfl) hearly hown (fun tx htx' => ?_) he hf
    rcases List.mem_append.mp htx' with htx' | htx'
    · exact hlater tx htx'
    · exact List.mem_singleton.mp htx' ▸ htx

/-- The dispatch has been refused a key, and the worker has not run its transaction: a
designated one is counted as forwarded in the report to come, whether it goes to the
owner of the key or, as an orphan, to the master. -/
theorem refused (h : Stand workers pool w fresh pc toOthers inbox ran reports)
    (hpc : pc.Executes job) {outcome : ExecutionOutcome}
    (houtcome : (∃ wid, outcome = .forwarded wid) ∨ outcome = .forwardedToMaster) :
    Stand workers pool w fresh (job.caller.resume outcome) toOthers inbox ran reports := by
  obtain ⟨rfl, ⟨hcaller, htx, hstale, -, rfl, hearly, rfl⟩ |
    ⟨e, f, early, before, rest, own, hcaller, rfl, hshare, rfl, rfl, hearly, hown, he, hf⟩ |
    ⟨hcaller, htx, -, rfl, e, f, early, own, later, rfl, rfl, hearly, hown, hlater, he, hf⟩⟩ :=
      h.of_executes hpc
  · have hresume : job.caller.resume outcome = .pollMaster := by rw [hcaller]; rfl
    rw [hresume]
    exact .draining (.inl rfl) hearly
  · have hresume : job.caller.resume outcome = .depleteMasterQueue e (f + 1) := by
      rw [hcaller]
      rcases houtcome with ⟨wid, rfl⟩ | rfl <;> rfl
    rw [hresume]
    have hshare' : pool.share w = (before ++ [job.tx]) ++ rest := by simp [hshare]
    refine .depleting hearly hshare' (hown.trans (List.sublist_append_left ..)) he ?_
    simp only [List.length_append, List.length_singleton]; omega
  · have hresume : job.caller.resume outcome = .pollMaster := by rw [hcaller]; rfl
    rw [hresume]
    exact .polling (.inl rfl) hearly hown hlater he hf

/-- The master's orders are what the worker expects. -/
theorem accepts (h : Stand workers pool w fresh pc toOthers inbox ran reports) (hpc : pc.Receives)
    {payload : MessagePayload} {rest : List MessagePayload} (hinbox : inbox = payload :: rest) :
    pc.Accepts payload := by
  cases h with
  | setup => cases hinbox; trivial
  | draining hpc' =>
    rcases hpc' with rfl | rfl
    · cases hinbox; trivial
    · exact hpc.elim
  | park => cases hpc
  | recvTask => cases hinbox; trivial
  | @depleting e f early before txs =>
    cases txs with
    | nil => cases hinbox; trivial
    | cons tx txs => cases hinbox; trivial
  | zeroth hpc' => cases hpc' <;> cases hpc
  | first hpc' => cases hpc' <;> cases hpc
  | reporting => cases hpc
  | polling => cases hinbox
  | second hpc' => cases hpc' <;> cases hpc

end Stand

/-! ## What becomes of a dispatch

`execute_or_forward` has three ways out when a key is refused.  A transaction that has
been forwarded before, or that owns keys already, becomes an orphan; any other goes to
the owner of the key, who is a worker.
-/

section
variable {id owner : ThreadId} {wk : Worker} {state : StateMap} {job : Job} {corrupt : Bool}
  {success : RuntimeDispatchSuccess}

theorem executeOrForward_ok :
    executeOrForward id wk state job (.ok success) =
      ⟨{ wk with
          pc := job.caller.resume (.executed success)
          toMaster := wk.toMaster ++ sentBy id [.dispatched id job.tx (.ok success)] },
        state, none, [.dispatched id job.tx (.ok success)]⟩ := by
  by_cases h : job.tx.execStatus = .forwarded <;>
    simp [executeOrForward, sentBy, Event.sent, h]

theorem executeOrForward_orphan (h : job.tx.execStatus = .forwarded ∨ corrupt = true) :
    executeOrForward id wk state job (.error (.tainted owner corrupt)) =
      ⟨{ wk with
          pc := job.caller.resume .forwardedToMaster
          toMaster := wk.toMaster ++
            sentBy id [.dispatched id job.tx (.error (.tainted owner corrupt))] },
        state, none, [.dispatched id job.tx (.error (.tainted owner corrupt))]⟩ := by
  rcases h with h | h <;> simp [executeOrForward, sentBy, Event.sent, h]

theorem executeOrForward_forward (h : job.tx.execStatus = .initial) (howner : owner ∈ wk.toOthers) :
    executeOrForward id wk state job (.error (.tainted owner false)) =
      ⟨{ wk with pc := job.caller.resume (.forwarded owner) }, state,
        some (owner, .transaction job.tx),
        [.dispatched id job.tx (.error (.tainted owner false))]⟩ := by
  simp [executeOrForward, h, howner]

theorem Worker.Caller.resume_job (caller : Caller) (outcome : ExecutionOutcome) :
    (caller.resume outcome).job = none := by
  cases caller <;> cases outcome <;> rfl

end

/-! ## What the others leave alone -/

section
variable {exec : Executor} {pool : Pool} {data₀ : Key → Value} {v w : ThreadId} {fresh : Prop}
  {wk : Worker}
  {pending : List MessagePayload} {state state' : StateMap} {log events : List Event}

theorem WorkerInv.of_other (h : WorkerInv exec pool data₀ v fresh wk pending state log)
    (hevents : ∀ e ∈ events, e.By w) (ht : Touch w state state') (hv : v ≠ w) :
    WorkerInv exec pool data₀ v fresh wk pending state' (log ++ events) := by
  have hran : ran v (log ++ events) = ran v log := by simp [ran_of_by hevents hv]
  have hsent : sentBy v (log ++ events) = sentBy v log := by simp [sentBy_of_by hevents hv]
  have hcol : collectedFrom v (log ++ events) = collectedFrom v log := by
    simp [collectedFrom_of_by hevents]
  have hstored : storedBy (some v) (log ++ events) = storedBy (some v) log := by
    simp [storedBy_of_by hevents hv]
  refine ⟨?_, h.queues, fun hfresh hdrain => ?_, ?_, ?_, ?_⟩
  · rw [hran, hsent]; exact h.stand
  · obtain ⟨hfrom, howns⟩ := h.undisturbed hfresh hdrain
    exact ⟨hfrom, fun k hk => howns k ((ht.owns_iff hv).mp hk)⟩
  · rw [hsent, hcol]; exact h.channel
  · rw [hran, hsent]; exact h.executed
  · rw [hran, hstored]; exact h.faithful.of_other ht hv

/-- A transaction is forwarded to the worker.  Such a worker owns a key, so if it is
fresh it has left its last task. -/
theorem WorkerInv.deliver (h : WorkerInv exec pool data₀ v fresh wk pending state log)
    {tx : Transaction} (htx : tx ∈ pool) (htag : tx.tag ≠ .done v)
    (howns : ∃ k, ConcurrentRuntime.Owns v state k) (sender : ThreadId) :
    WorkerInv exec pool data₀ v fresh
      { wk with fromOthers :=
          Function.update wk.fromOthers sender (wk.fromOthers sender ++ [.transaction tx]) }
      pending state log := by
  refine ⟨h.stand, fun u payload hp => ?_, fun hfresh hdrain => ?_, h.channel, h.executed,
    h.faithful⟩
  · change payload ∈ Function.update wk.fromOthers sender _ u at hp
    by_cases hu : u = sender
    · subst hu
      rw [Function.update_self, List.mem_append, List.mem_singleton] at hp
      rcases hp with hp | rfl
      · exact h.queues u payload hp
      · exact ⟨tx, htx, htag, rfl⟩
    · rw [Function.update_of_ne hu] at hp
      exact h.queues u payload hp
  · obtain ⟨k, hk⟩ := howns
    exact absurd hk ((h.undisturbed hfresh hdrain).2 k)

/-- The places of a worker do not change where its queues and its record do not. -/
theorem Slot.held_congr {wk' : Worker} {pending' : List MessagePayload}
    (hq : txIds (wk'.fromMaster ++ pending') = txIds (wk.fromMaster ++ pending))
    (hjob : wk'.pc.job = wk.pc.job) (hran : SonicChain.ran w events = [])
    (horphan : (sentBy w events).filterMap MessagePayload.orphan? = [])
    (hfrom : wk'.fromOthers = wk.fromOthers) (slot : Slot) :
    slot.held w wk' pending' (log ++ events) = slot.held w wk pending log := by
  cases slot with
  | pending => exact hq
  | executing => simp only [held, hjob]
  | ran => simp [held, hran]
  | orphan => simp [held, horphan]
  | forwarded sender => simp only [held, hfrom]

theorem Slot.held_of_other (hevents : ∀ e ∈ events, e.By w) (hv : v ≠ w) (slot : Slot) :
    slot.held v wk pending (log ++ events) = slot.held v wk pending log :=
  Slot.held_congr rfl rfl (ran_of_by hevents hv) (by rw [sentBy_of_by hevents hv]; rfl) rfl slot

end

namespace Authoring
variable {exec : Executor} {pool : Pool} {data₀ : Key → Value} {fresh : ThreadId → Prop}
  {w : ThreadId} {s : System} {m : Move}

theorem applyMove_worker_self (hforward : m.forward = none) :
    (s.applyMove w m).worker w = m.worker := by
  simp [System.applyMove, System.deliver, hforward]

theorem applyMove_worker_other (hforward : m.forward = none) {v : ThreadId} (hv : v ≠ w) :
    (s.applyMove w m).worker v = s.worker v := by
  simp [System.applyMove, System.deliver, hforward, hv]

/-- A step that forwards nothing concerns one worker and the record: it remains to show
the invariant of that worker, the places of the transactions, and what the step does
to the state. -/
theorem of_move (h : Authoring exec pool data₀ fresh s) (hw : w ∈ exec.workers)
    (hforward : m.forward = none) (hevents : ∀ e ∈ m.events, e.By w)
    (htouch : Touch w s.state m.state)
    (hinv : WorkerInv exec pool data₀ w (fresh w) m.worker (s.master.pending pool w) m.state
      (s.log ++ m.events))
    (htracked : (s.applyMove w m).Tracked exec pool) :
    Authoring exec pool data₀ fresh (s.applyMove w m) := by
  refine ⟨fun v hv => ?_, htracked, h.untouched.touch hw htouch, h.todo, fun e he => ?_, ?_⟩
  · by_cases hvw : v = w
    · subst hvw
      rw [applyMove_worker_self hforward]
      exact hinv
    · rw [applyMove_worker_other hforward hvw]
      exact (h.workers v hv).of_other hevents htouch hvw
  · rcases List.mem_append.mp he with he | he
    · exact h.record e he
    · exact ⟨w, hw, .inl (hevents e he)⟩
  · have : collectedAll (s.applyMove w m).log = collectedAll s.log := by
      simp [System.applyMove, collectedAll_of_by hevents]
    rw [this]
    exact h.master

theorem held_self (hforward : m.forward = none) (slot : Slot) :
    (s.applyMove w m).held pool ⟨w, slot⟩ =
      slot.held w m.worker (s.master.pending pool w) (s.log ++ m.events) := by
  rw [System.held, applyMove_worker_self hforward]
  rfl

theorem held_other (hforward : m.forward = none) (hevents : ∀ e ∈ m.events, e.By w) {p : Place}
    (hp : p.worker ≠ w) : (s.applyMove w m).held pool p = s.held pool p := by
  rw [System.held, applyMove_worker_other hforward hp]
  exact Slot.held_of_other hevents hp p.slot

/-- A step in which no transaction moves. -/
theorem tracked_of_still (h : s.Tracked exec pool) (hforward : m.forward = none)
    (hevents : ∀ e ∈ m.events, e.By w)
    (hq : txIds (m.worker.fromMaster ++ s.master.pending pool w) =
      txIds ((s.worker w).fromMaster ++ s.master.pending pool w))
    (hjob : m.worker.pc.job = (s.worker w).pc.job) (hran : ran w m.events = [])
    (horphan : (sentBy w m.events).filterMap MessagePayload.orphan? = [])
    (hfrom : m.worker.fromOthers = (s.worker w).fromOthers)
    (hattempts : ∀ tid, attemptsOf tid m.events = []) : (s.applyMove w m).Tracked exec pool := by
  have hheld : ∀ p, (s.applyMove w m).held pool p = s.held pool p := by
    rintro ⟨v, slot⟩
    by_cases hv : v = w
    · subst hv
      rw [held_self hforward]
      exact Slot.held_congr hq hjob hran horphan hfrom slot
    · exact held_other hforward hevents hv
  refine ⟨h.placed.congr fun p _ => hheld p, fun p hp tid htid => ?_⟩
  rw [hheld] at htid
  have hold := h.attempts p hp tid htid
  have hlog : attemptsOf tid (s.applyMove w m).log = attemptsOf tid s.log := by
    simp [System.applyMove, hattempts]
  rw [hlog]
  by_cases hv : p.worker = w
  · rw [hv, applyMove_worker_self hforward]
    rw [hv] at hold
    cases hslot : p.slot <;> simpa [Slot.attempts, hslot, hjob] using hold
  · rw [applyMove_worker_other hforward hv]
    exact hold

/-- A step in which one transaction goes from `p` to `q`. -/
theorem tracked_of_shift {s' : System} (h : s.Tracked exec pool) (p q : Place)
    (tid : TransactionId) (hpq : p ≠ q) (hp : p.worker ∈ exec.workers)
    (hq : q.worker ∈ exec.workers) (hfrom : s.held pool p = tid :: s'.held pool p)
    (hto : s'.held pool q = s.held pool q ++ [tid])
    (hother : ∀ r, r ≠ p → r ≠ q → s'.held pool r = s.held pool r)
    (hattempts : ∀ u, u ≠ tid → attemptsOf u s'.log = attemptsOf u s.log)
    (hlimit : (attemptsOf tid s'.log).length ≤ q.slot.attempts (s'.worker q.worker))
    (hjobs : ∀ v, (s'.worker v).pc.job = (s.worker v).pc.job ∨
      ∀ u ∈ s'.held pool ⟨v, .executing⟩, u = tid) : s'.Tracked exec pool := by
  have hplaced := h.placed.move hpq hp hq hfrom hto fun r _ => hother r
  refine ⟨hplaced, fun r hr u hu => ?_⟩
  by_cases hut : u = tid
  · subst hut
    have huq : u ∈ s'.held pool q := by rw [hto]; simp
    rw [hplaced.apart r q u hr hq hu huq]
    exact hlimit
  · rw [hattempts u hut]
    have hold : u ∈ s.held pool r := by
      by_cases hrq : r = q
      · rw [hrq, hto, List.mem_append, List.mem_singleton] at hu
        exact hrq ▸ hu.resolve_right hut
      · by_cases hrp : r = p
        · rw [hrp, hfrom]
          exact List.mem_cons_of_mem _ (hrp ▸ hu)
        · exact hother r hrp hrq ▸ hu
    refine (h.attempts r hr u hold).trans (Nat.le_of_eq ?_)
    obtain ⟨v, slot⟩ := r
    cases slot with
    | executing =>
      rcases hjobs v with hjob | hjob
      · simp only [Slot.attempts, hjob]
      · exact absurd (hjob u hu) hut
    | _ => rfl

/-! ## The steps -/

/-- The worker goes on in its program, and nothing else changes. -/
theorem turn (h : Authoring exec pool data₀ fresh s) (hw : w ∈ exec.workers) {wk' : Worker}
    (hfrom : wk'.fromOthers = (s.worker w).fromOthers)
    (hto : wk'.toMaster = (s.worker w).toMaster) (hjob : (s.worker w).pc.job = none)
    (hjob' : wk'.pc.job = none)
    (hq : txIds (wk'.fromMaster ++ s.master.pending pool w) =
      txIds ((s.worker w).fromMaster ++ s.master.pending pool w))
    (hdrain : Draining (wk'.fromMaster ++ s.master.pending pool w) →
      Draining ((s.worker w).fromMaster ++ s.master.pending pool w))
    (hstand : Stand exec.workers pool w (fresh w) wk'.pc wk'.toOthers
      (wk'.fromMaster ++ s.master.pending pool w) (ran w s.log)
      ((sentBy w s.log).filterMap MessagePayload.report?)) :
    Authoring exec pool data₀ fresh (s.applyMove w (quiet wk' s.state)) := by
  have hinv := h.workers w hw
  have hnil : s.log ++ (quiet wk' s.state).events = s.log := List.append_nil _
  refine h.of_move hw rfl (by simp [quiet]) .same ?_ ?_
  · rw [hnil]
    refine ⟨hstand, ?_, fun hfresh hd => ?_, ?_, hinv.executed, hinv.faithful.turn hjob hjob'⟩
    · rw [show (quiet wk' s.state).worker.fromOthers = (s.worker w).fromOthers from hfrom]
      exact hinv.queues
    · rw [show (quiet wk' s.state).worker.fromOthers = (s.worker w).fromOthers from hfrom]
      exact hinv.undisturbed hfresh (hdrain hd)
    · rw [show (quiet wk' s.state).worker.toMaster = (s.worker w).toMaster from hto]
      exact hinv.channel
  · exact tracked_of_still h.tracked rfl (by simp [quiet]) hq (hjob'.trans hjob.symm) rfl rfl hfrom
      fun _ => rfl

/-- A step inside a dispatch. -/
theorem inside (h : Authoring exec pool data₀ fresh s) (hw : w ∈ exec.workers) {job : Job}
    (hexec : (s.worker w).pc.Executes job)
    (hm : Inside exec.workers data₀ w (s.worker w) s.state ((ran w s.log).map Transaction.code)
      (storedBy (some w) s.log) job m) :
    Authoring exec pool data₀ fresh (s.applyMove w m) := by
  have hinv := h.workers w hw
  have haccess : ∀ e ∈ m.events, e.IsAccess := fun e he => (hm.events e he).1
  have hby : ∀ e ∈ m.events, e.By w := fun e he => (hm.events e he).2
  have hran : ran w (s.log ++ m.events) = ran w s.log := by simp [ran_of_isAccess haccess]
  have hsent : sentBy w (s.log ++ m.events) = sentBy w s.log := by
    simp [sentBy_of_isAccess haccess]
  have hcol : collectedFrom w (s.log ++ m.events) = collectedFrom w s.log := by
    simp [collectedFrom_of_by hby]
  have hmaster : m.worker.fromMaster = (s.worker w).fromMaster := by rw [hm.worker]
  have hothers : m.worker.toOthers = (s.worker w).toOthers := by rw [hm.worker]
  have hfrom : m.worker.fromOthers = (s.worker w).fromOthers := by rw [hm.worker]
  have hto : m.worker.toMaster = (s.worker w).toMaster := by rw [hm.worker]
  refine h.of_move hw hm.forward hby hm.touch ⟨?_, ?_, fun hfresh hdrain => ?_, ?_, ?_, ?_⟩ ?_
  · rw [hran, hsent, hothers, hmaster]
    exact hinv.stand.inside hexec hm.executes
  · rw [hfrom]; exact hinv.queues
  · rw [hmaster] at hdrain
    exact absurd hdrain (hinv.stand.not_draining hexec hfresh)
  · rw [hsent, hcol, hto]; exact hinv.channel
  · rw [hran, hsent]; exact hinv.executed
  · rw [hran, storedBy_append]; exact hm.faithful
  · refine tracked_of_still h.tracked hm.forward hby (by rw [hmaster]) ?_
      (ran_of_isAccess haccess) (by rw [sentBy_of_isAccess haccess]; rfl) hfrom
      fun tid => attemptsOf_of_isAccess haccess tid
    rw [hm.executes.job_eq, hexec.job_eq]

/-- A worker takes a transaction out of `slot` and begins to execute it: from there on
the transaction is in its hands. -/
theorem take (h : Authoring exec pool data₀ fresh s) (slot : Slot) (hw : w ∈ exec.workers) {wk' : Worker}
    {caller : Caller} {source : Option ThreadId} {tx : Transaction}
    (hto : wk'.toMaster = (s.worker w).toMaster) (hjob : (s.worker w).pc.job = none)
    (hslot : slot ≠ .executing)
    (hfrom : slot.held w (s.worker w) (s.master.pending pool w) s.log =
      tx.id :: slot.held w wk' (s.master.pending pool w) s.log)
    (hother : ∀ slot', slot' ≠ slot → slot' ≠ .executing →
      slot'.held w wk' (s.master.pending pool w) s.log =
        slot'.held w (s.worker w) (s.master.pending pool w) s.log)
    (hattempts : slot.attempts (s.worker w) + 1 = if tx.execStatus = .initial then 1 else 2)
    (hqueues : ∀ v, ∀ payload ∈ wk'.fromOthers v, payload ∈ (s.worker w).fromOthers v)
    (hstand : ∀ pc, pc.Executes ⟨caller, tx⟩ → Stand exec.workers pool w (fresh w) pc wk'.toOthers
      (wk'.fromMaster ++ s.master.pending pool w) (ran w s.log)
      ((sentBy w s.log).filterMap MessagePayload.report?)) :
    Authoring exec pool data₀ fresh (s.applyMove w (start w wk' s.state caller source tx)) := by
  have hinv := h.workers w hw
  have hby : ∀ e ∈ (start w wk' s.state caller source tx).events, e.By w := by
    intro e he
    obtain rfl := List.mem_singleton.mp he
    rfl
  have hran : ran w (s.log ++ (start w wk' s.state caller source tx).events) = ran w s.log := by
    rw [ran_append]; exact List.append_nil _
  have hsent : sentBy w (s.log ++ (start w wk' s.state caller source tx).events) =
      sentBy w s.log := by rw [sentBy_append]; exact List.append_nil _
  have hcol : collectedFrom w (s.log ++ (start w wk' s.state caller source tx).events) =
      collectedFrom w s.log := by rw [collectedFrom_append]; exact List.append_nil _
  have hstored : storedBy (some w) (s.log ++ (start w wk' s.state caller source tx).events) =
      storedBy (some w) s.log := by rw [storedBy_append]; exact List.append_nil _
  have hexec : ∀ held' : Slot, held' ≠ .executing →
      held'.held w (start w wk' s.state caller source tx).worker (s.master.pending pool w)
        (s.log ++ (start w wk' s.state caller source tx).events) =
      held'.held w wk' (s.master.pending pool w) s.log := by
    intro slot' hs
    cases slot' with
    | executing => exact absurd rfl hs
    | ran => simp only [Slot.held, hran]
    | orphan => simp only [Slot.held, hsent]
    | _ => rfl
  have hidle : s.held pool ⟨w, .executing⟩ = [] := by simp [System.held, Slot.held, hjob]
  have hnow : (s.applyMove w (start w wk' s.state caller source tx)).held pool ⟨w, .executing⟩ =
      [tx.id] := by rw [held_self rfl]; rfl
  refine h.of_move hw rfl hby .same ⟨?_, ?_, fun hfresh hdrain => ?_, ?_, ?_, ?_⟩ ?_
  · rw [hran, hsent]; exact hstand _ (.executing ..)
  · exact fun v payload hp => hinv.queues v payload (hqueues v payload hp)
  · have hnow := hstand _ (.executing ⟨caller, tx⟩ tx.code ∅)
    exact absurd hdrain (hnow.not_draining (.executing ..) hfresh)
  · rw [hsent, hcol]
    exact hinv.channel.trans (congrArg _ hto.symm)
  · rw [hran, hsent]; exact hinv.executed
  · rw [hran, hstored]; exact hinv.faithful.start hjob caller tx
  · refine tracked_of_shift h.tracked ⟨w, slot⟩ ⟨w, .executing⟩ tx.id
      (fun he => hslot (congrArg Place.slot he)) hw hw ?_ ?_ ?_ ?_ ?_ ?_
    · rw [held_self rfl, hexec slot hslot]
      exact hfrom
    · rw [hidle, hnow]; rfl
    · rintro ⟨v, slot'⟩ hp hq
      by_cases hv : v = w
      · subst hv
        have hs : slot' ≠ slot := fun he => hp (he ▸ rfl)
        have hs' : slot' ≠ .executing := fun he => hq (he ▸ rfl)
        rw [held_self rfl, hexec slot' hs']
        exact hother slot' hs hs'
      · exact held_other rfl hby hv
    · intro u hu
      have : attemptsOf u (start w wk' s.state caller source tx).events = [] := by
        simp [attemptsOf, start, Event.attemptOf, Ne.symm hu]
      simp [System.applyMove, this]
    · have hone : attemptsOf tx.id (start w wk' s.state caller source tx).events = [w] := by
        simp [attemptsOf, start, Event.attemptOf]
      have hold := h.tracked.attempts ⟨w, slot⟩ hw tx.id (by
        rw [show s.held pool ⟨w, slot⟩ = _ from hfrom]
        exact List.mem_cons_self ..)
      have hlen : (attemptsOf tx.id
          (s.applyMove w (start w wk' s.state caller source tx)).log).length =
          (attemptsOf tx.id s.log).length + 1 := by
        simp [System.applyMove, hone]
      rw [hlen, applyMove_worker_self rfl]
      refine (Nat.add_le_add_right hold 1).trans (Nat.le_of_eq ?_)
      exact hattempts
    · intro v
      by_cases hv : v = w
      · subst hv
        exact .inr fun u hu => List.mem_singleton.mp (hnow ▸ hu)
      · exact .inl (by rw [applyMove_worker_other rfl hv])

/-- A worker makes its report. -/
theorem report (h : Authoring exec pool data₀ fresh s) (hw : w ∈ exec.workers) {e f : Nat}
    (hpc : (s.worker w).pc = .sendReport e f) :
    Authoring exec pool data₀ fresh (s.applyMove w ⟨{ s.worker w with
      pc := .pollMaster
      toMaster := (s.worker w).toMaster ++ [.authoringReport e f] }, s.state, none,
      [.reported w e f]⟩) := by
  have hinv := h.workers w hw
  have hstand := hinv.stand
  rw [hpc] at hstand
  obtain ⟨hothers, hreports, hinbox, early, own, hran, hearly, hown, he, hf⟩ :=
    hstand.of_sendReport
  have hby : ∀ ev ∈ [Event.reported w e f], ev.By w := by
    intro ev hev
    obtain rfl := List.mem_singleton.mp hev
    rfl
  have hsent : sentBy w [Event.reported w e f] = [.authoringReport e f] := by
    simp [sentBy, Event.sent]
  have hnil : ran w (s.log ++ [Event.reported w e f]) = ran w s.log := by
    rw [ran_append]; exact List.append_nil _
  have hjob : (s.worker w).pc.job = none := by rw [hpc]; rfl
  refine h.of_move hw rfl hby .same ⟨?_, hinv.queues, fun _ hdrain => ?_, ?_, ?_, ?_⟩ ?_
  · have hout : Stand exec.workers pool w (fresh w) .pollMaster exec.workers []
        (ran w s.log ++ []) [(e, f)] := by
      rw [hran]
      exact .polling (.inl rfl) hearly hown (fun _ htx => absurd htx List.not_mem_nil) he hf
    rw [List.append_nil] at hout
    simpa [hsent, hnil, hothers, hinbox, hreports, MessagePayload.report?] using hout
  · obtain ⟨rest, hrest⟩ := hdrain
    cases hinbox.symm.trans hrest
  · simp [hsent, hinv.channel, collectedFrom_of_by hby]
  · simp [hsent, hnil, hinv.executed, MessagePayload.executed?]
  · rw [hnil, storedBy_append]
    exact (List.append_nil (storedBy (some w) s.log)).symm ▸ hinv.faithful.turn hjob rfl
  · exact tracked_of_still h.tracked rfl hby rfl hjob.symm rfl
      (by simp [hsent, MessagePayload.orphan?]) rfl fun _ => rfl

/-- A dispatch returns, and its transaction stays with the worker, which has run it, or
goes to the master as an orphan.  `slot` is where it is afterwards. -/
theorem settle (h : Authoring exec pool data₀ fresh s) (slot : Slot) (hw : w ∈ exec.workers) {job : Job}
    {pc' : Pc} {result : RuntimeDispatchResult} (hexec : (s.worker w).pc.Executes job)
    (hjob : pc'.job = none) (hslot : slot ≠ .executing) (hlimit : ∀ wk, slot.attempts wk = 2)
    (hstand : Stand exec.workers pool w (fresh w) pc' (s.worker w).toOthers
      ((s.worker w).fromMaster ++ s.master.pending pool w)
      (ran w s.log ++ ran w [.dispatched w job.tx result])
      ((sentBy w s.log).filterMap MessagePayload.report?))
    (hreport : (sentBy w [.dispatched w job.tx result]).filterMap MessagePayload.report? = [])
    (hexecuted : (sentBy w [.dispatched w job.tx result]).filterMap MessagePayload.executed? =
      ((ran w [.dispatched w job.tx result]).filter
        fun tx => decide (tx.execStatus = .forwarded)).map Transaction.id)
    (hfaithful : Faithful exec.workers data₀ w s.state
      ((ran w s.log).map Transaction.code ++
        (ran w [.dispatched w job.tx result]).map Transaction.code) (storedBy (some w) s.log) pc')
    (hto : ∀ wk' pending, slot.held w wk' pending (s.log ++ [.dispatched w job.tx result]) =
      slot.held w wk' pending s.log ++ [job.tx.id])
    (hother : ∀ slot', slot' ≠ .executing → slot' ≠ slot → ∀ wk' pending,
      slot'.held w wk' pending (s.log ++ [.dispatched w job.tx result]) =
        slot'.held w wk' pending s.log) :
    Authoring exec pool data₀ fresh (s.applyMove w ⟨{ s.worker w with
      pc := pc'
      toMaster := (s.worker w).toMaster ++ sentBy w [.dispatched w job.tx result] },
      s.state, none, [.dispatched w job.tx result]⟩) := by
  have hinv := h.workers w hw
  have hby : ∀ e ∈ [Event.dispatched w job.tx result], e.By w := by
    intro e he
    obtain rfl := List.mem_singleton.mp he
    rfl
  refine h.of_move hw rfl hby .same ⟨?_, hinv.queues, fun hfresh hdrain => ?_, ?_, ?_, ?_⟩ ?_
  · rw [ran_append, sentBy_append, List.filterMap_append, hreport, List.append_nil]
    exact hstand
  · exact absurd hdrain (hinv.stand.not_draining hexec hfresh)
  · rw [sentBy_append, collectedFrom_append, hinv.channel, collectedFrom_of_by hby,
      List.append_nil, List.append_assoc]
  · rw [ran_append, sentBy_append, List.filterMap_append, hinv.executed, hexecuted,
      List.filter_append, List.map_append]
  · rw [ran_append, storedBy_append, List.map_append]
    exact (List.append_nil (storedBy (some w) s.log)).symm ▸ hfaithful
  · -- The places of the worker but for `executing` do not depend on what it has sent.
    have held_eq : ∀ slot' : Slot, slot' ≠ .executing → ∀ log, slot'.held w
        ({ s.worker w with
          pc := pc'
          toMaster := (s.worker w).toMaster ++ sentBy w [.dispatched w job.tx result] } : Worker)
        (s.master.pending pool w) log =
        slot'.held w (s.worker w) (s.master.pending pool w) log := by
      intro slot' hs log
      cases slot' with
      | executing => exact absurd rfl hs
      | _ => rfl
    refine tracked_of_shift h.tracked ⟨w, .executing⟩ ⟨w, slot⟩ job.tx.id
      (fun he => hslot (congrArg Place.slot he).symm) hw hw ?_ ?_ ?_ ?_ ?_ ?_
    · rw [held_self rfl]
      simp [System.held, Slot.held, hexec.job_eq, hjob]
    · rw [held_self rfl, hto, held_eq slot hslot]
      rfl
    · rintro ⟨v, slot'⟩ hp hq
      by_cases hv : v = w
      · subst hv
        have hs : slot' ≠ .executing := fun he => hp (he ▸ rfl)
        have hs' : slot' ≠ slot := fun he => hq (he ▸ rfl)
        rw [held_self rfl, hother slot' hs hs', held_eq slot' hs]
        rfl
      · exact held_other rfl hby hv
    · intro u hu
      simp [System.applyMove, attemptsOf, Event.attemptOf]
    · have hold := h.tracked.attempts ⟨w, .executing⟩ hw job.tx.id
        (by simp [System.held, Slot.held, hexec.job_eq])
      have hle : Slot.attempts (s.worker w) .executing ≤ 2 := by
        simp only [Slot.attempts, hexec.job_eq]
        split <;> omega
      rw [applyMove_worker_self rfl, hlimit]
      have hlog : attemptsOf job.tx.id (s.log ++ [.dispatched w job.tx result]) =
          attemptsOf job.tx.id s.log := by simp [attemptsOf, Event.attemptOf]
      rw [System.applyMove, hlog]
      exact hold.trans hle
    · intro v
      by_cases hv : v = w
      · subst hv
        refine .inr fun u hu => ?_
        rw [held_self rfl] at hu
        simp [Slot.held, hjob] at hu
      · exact .inl (by rw [applyMove_worker_other rfl hv])

/-- A dispatch returns, and its transaction goes to another worker: the one step that
concerns two workers.  The one that forwards is never the owner of the key, for a
thread is not refused what it owns. -/
theorem forward (h : Authoring exec pool data₀ fresh s) (hw : w ∈ exec.workers) {job : Job} {pc' : Pc}
    {owner : ThreadId} (hexec : (s.worker w).pc.Executes job) (hjob : pc'.job = none)
    (hinitial : job.tx.execStatus = .initial) (htx : job.tx ∈ pool) (htag : job.tx.tag = .done w)
    (howner : owner ∈ exec.workers) (hne : owner ≠ w)
    (howns : ∃ k, ConcurrentRuntime.Owns owner s.state k)
    (hstand : Stand exec.workers pool w (fresh w) pc' (s.worker w).toOthers
      ((s.worker w).fromMaster ++ s.master.pending pool w) (ran w s.log)
      ((sentBy w s.log).filterMap MessagePayload.report?))
    (hfaithful : Faithful exec.workers data₀ w s.state ((ran w s.log).map Transaction.code)
      (storedBy (some w) s.log) pc') :
    Authoring exec pool data₀ fresh (s.applyMove w ⟨{ s.worker w with pc := pc' }, s.state,
      some (owner, .transaction job.tx),
      [.dispatched w job.tx (.error (.tainted owner false))]⟩) := by
  have hby : ∀ e ∈ [Event.dispatched w job.tx (.error (.tainted owner false))], e.By w := by
    intro e he
    obtain rfl := List.mem_singleton.mp he
    rfl
  have hran : ran w (s.log ++ [.dispatched w job.tx (.error (.tainted owner false))]) =
      ran w s.log := by rw [ran_append]; exact List.append_nil _
  have hsent : sentBy w (s.log ++ [.dispatched w job.tx (.error (.tainted owner false))]) =
      sentBy w s.log := by simp [sentBy, Event.sent, hinitial]
  have hcol : collectedFrom w (s.log ++ [.dispatched w job.tx (.error (.tainted owner false))]) =
      collectedFrom w s.log := by rw [collectedFrom_append]; exact List.append_nil _
  have hcolAll : collectedAll (s.log ++ [.dispatched w job.tx (.error (.tainted owner false))]) =
      collectedAll s.log := by rw [collectedAll_append]; exact List.append_nil _
  have hinv := h.workers w hw
  -- The two workers that change, and the others.
  generalize hs' : s.applyMove w _ = s'
  have hself : s'.worker w = { s.worker w with pc := pc' } := by
    simp [← hs', System.applyMove, System.deliver, Ne.symm hne]
  have htarget : s'.worker owner =
      { s.worker owner with
        fromOthers := Function.update (s.worker owner).fromOthers w
          ((s.worker owner).fromOthers w ++ [.transaction job.tx]) } := by
    simp [← hs', System.applyMove, System.deliver, hne]
  have hothers : ∀ v, v ≠ w → v ≠ owner → s'.worker v = s.worker v := by
    intro v hv hvo
    simp [← hs', System.applyMove, System.deliver, hv, hvo]
  have hlog : s'.log = s.log ++ [.dispatched w job.tx (.error (.tainted owner false))] := by
    simp [← hs', System.applyMove]
  have hmaster : s'.master = s.master := by simp [← hs', System.applyMove]
  have hstate : s'.state = s.state := by simp [← hs', System.applyMove]
  refine ⟨fun v hv => ?_, ?_, ?_, ?_, fun e he => ?_, ?_⟩
  · rw [hmaster, hstate, hlog]
    by_cases hvw : v = w
    · subst hvw
      rw [hself]
      refine ⟨?_, hinv.queues, fun hfresh hdrain => ?_, ?_, ?_, ?_⟩
      · rw [hran, hsent]; exact hstand
      · exact absurd hdrain (hinv.stand.not_draining hexec hfresh)
      · rw [hsent, hcol]; exact hinv.channel
      · rw [hran, hsent]; exact hinv.executed
      · rw [hran, storedBy_append]
        exact (List.append_nil (storedBy (some v) s.log)).symm ▸ hfaithful
    · have hold := (h.workers v hv).of_other hby .same hvw
      by_cases hvo : v = owner
      · subst hvo
        rw [htarget]
        refine hold.deliver htx (fun he => hne ?_) howns w
        exact (ExecutionTag.done.inj (htag.symm.trans he)).symm
      · rw [hothers v hvw hvo]; exact hold
  · have held_eq : ∀ v slot, v ≠ w → (v ≠ owner ∨ slot ≠ .forwarded w) →
        s'.held pool ⟨v, slot⟩ = s.held pool ⟨v, slot⟩ := by
      intro v slot hv hslot
      simp only [System.held, hmaster, hlog]
      rw [Slot.held_of_other hby hv]
      by_cases hvo : v = owner
      · subst hvo
        rw [htarget]
        cases slot with
        | forwarded sender =>
          have hsender : sender ≠ w := fun he => hslot.elim (· rfl) (· (he ▸ rfl))
          simp [Slot.held, hsender]
        | _ => rfl
      · rw [hothers v hv hvo]
    refine tracked_of_shift h.tracked ⟨w, .executing⟩ ⟨owner, .forwarded w⟩ job.tx.id
      (fun he => hne (congrArg Place.worker he).symm) hw howner ?_ ?_ ?_ ?_ ?_ ?_
    · simp [System.held, Slot.held, hself, hexec.job_eq, hjob]
    · simp only [System.held, Slot.held, htarget, Function.update_self]
      rw [txIds_append]
      rfl
    · rintro ⟨v, slot⟩ hp hq
      by_cases hv : v = w
      · subst hv
        simp only [System.held, hself, hmaster, hlog]
        cases slot with
        | executing => exact absurd rfl hp
        | ran => simp only [Slot.held, hran]
        | orphan => simp only [Slot.held, hsent]
        | _ => rfl
      · refine held_eq v slot hv ?_
        by_cases hvo : v = owner
        · exact .inr fun he => hq (by rw [hvo, he])
        · exact .inl hvo
    · intro u hu
      simp [hlog, attemptsOf, Event.attemptOf]
    · have hold := h.tracked.attempts ⟨w, .executing⟩ hw job.tx.id
        (by simp [System.held, Slot.held, hexec.job_eq])
      simp only [Slot.attempts, hexec.job_eq, hinitial, ↓reduceIte] at hold
      rw [hlog, attemptsOf_append]
      exact (congrArg List.length (List.append_nil _)).trans_le hold
    · intro v
      by_cases hv : v = w
      · subst hv
        refine .inr fun u hu => ?_
        simp [System.held, Slot.held, hself, hjob] at hu
      · by_cases hvo : v = owner
        · subst hvo; exact .inl (by rw [htarget])
        · exact .inl (by rw [hothers v hv hvo])
  · rw [hstate]; exact h.untouched
  · rw [hmaster]; exact h.todo
  · rw [hlog] at he
    rcases List.mem_append.mp he with he | he
    · exact h.record e he
    · exact ⟨w, hw, .inl (hby e he)⟩
  · rw [hlog, hcolAll, hmaster]; exact h.master

/-- **Every step of a worker keeps the protocol**, unless the body of a call
panics.  The cases are those of `Step`; what each of them needs to know is where the
worker stands before it. -/
theorem worker_step (h : Authoring exec pool data₀ fresh s) (hpool : Assigned exec pool)
    (hw : w ∈ exec.workers) (hstep : Step w (s.worker w) s.state m) :
    Authoring exec pool data₀ fresh (s.applyMove w m) ∨ ∃ why, m.worker.pc = .dispatchPanicked why := by
  have hinv := h.workers w hw
  have hstand := hinv.stand
  -- Inside a dispatch, the runtime has the say.
  by_cases hexec : ∃ job, (s.worker w).pc.Executes job
  · obtain ⟨job, hexec⟩ := hexec
    rcases hinv.faithful.inside h.untouched hstep hexec with hm | ⟨why, rfl⟩ | ⟨result, hres, rfl⟩
    · exact .inl (h.inside hw hexec hm)
    · exact .inr ⟨why, rfl⟩
    · left
      rcases hinv.faithful.settle hres with ⟨success, hr, hfaithful⟩ |
        ⟨owner, howner, hne, howns, corrupt, hr, hfaithful⟩
      · rw [hr, executeOrForward_ok]
        have hran : ran w [.dispatched w job.tx (.ok success)] = [job.tx] := by
          simp [ran, Event.ran]
        refine h.settle .ran hw hexec (job.caller.resume_job _) (by decide) (fun _ => rfl) ?_ ?_ ?_
          ?_ (fun wk' pending => ?_) fun slot' hs hs' wk' pending => ?_
        · rw [hran]; exact hstand.executed hexec success
        · by_cases hst : job.tx.execStatus = .forwarded <;>
            simp [sentBy, Event.sent, hst, MessagePayload.report?]
        · rw [hran]
          by_cases hst : job.tx.execStatus = .forwarded <;>
            simp [sentBy, Event.sent, hst, MessagePayload.executed?]
        · rw [hran]; exact hfaithful _ (job.caller.resume_job _)
        · simp [Slot.held, hran]
        · cases slot' with
          | executing => exact absurd rfl hs
          | ran => exact absurd rfl hs'
          | orphan =>
            by_cases hst : job.tx.execStatus = .forwarded <;>
              simp [Slot.held, sentBy, Event.sent, hst, MessagePayload.orphan?]
          | _ => rfl
      · rw [hr]
        by_cases horphan : job.tx.execStatus = .forwarded ∨ corrupt = true
        · rw [executeOrForward_orphan horphan]
          have hsent : sentBy w [.dispatched w job.tx (.error (.tainted owner corrupt))] =
              [.workerOrphan job.tx.id] := by simp [sentBy, Event.sent, horphan]
          have hran : ran w [.dispatched w job.tx (.error (.tainted owner corrupt))] = [] := rfl
          refine h.settle .orphan hw hexec (job.caller.resume_job _) (by decide) (fun _ => rfl) ?_
            ?_ ?_ ?_ (fun wk' pending => ?_) fun slot' hs hs' wk' pending => ?_
          · rw [hran, List.append_nil]; exact hstand.refused hexec (.inr rfl)
          · rw [hsent]; rfl
          · rw [hsent]; rfl
          · rw [hran, List.map_nil, List.append_nil]; exact hfaithful _ (job.caller.resume_job _)
          · simp [Slot.held, hsent, MessagePayload.orphan?]
          · cases slot' with
            | executing => exact absurd rfl hs
            | ran => simp [Slot.held, hran]
            | orphan => exact absurd rfl hs'
            | _ => rfl
        · obtain ⟨hst, rfl⟩ : job.tx.execStatus = .initial ∧ corrupt = false := by
            cases hst : job.tx.execStatus <;> cases corrupt <;> simp_all
          obtain ⟨hothers, ⟨-, ⟨t, -, -, ht⟩, -⟩ | ⟨e, f, early, before, rest, own, -, -, hshare, -⟩ |
            ⟨-, ⟨t, -, -, ht⟩, -⟩⟩ := hstand.of_executes hexec
          · rw [ht] at hst; cases hst
          · have hmem : job.tx ∈ pool.share w := by rw [hshare]; simp
            obtain ⟨htx, htag⟩ := List.mem_filter.mp hmem
            rw [executeOrForward_forward hst (hothers ▸ howner)]
            exact h.forward hw hexec (job.caller.resume_job _) hst htx (of_decide_eq_true htag)
              howner hne howns (hstand.refused hexec (.inl ⟨owner, rfl⟩))
              (hfaithful _ (job.caller.resume_job _))
          · rw [ht] at hst; cases hst
  -- Outside, the worker's orders do.
  · have outside : ∀ {job : Job}, (s.worker w).pc.Executes job → False := fun hj => hexec ⟨_, hj⟩
    cases hstep with
    | setup hpc hq =>
      rw [hpc, hq] at hstand
      obtain ⟨hinbox, hran, hreports⟩ := hstand.of_setup
      obtain ⟨hdata, hrest⟩ := queue_eq_cons hinbox
      cases hdata
      refine .inl (h.turn hw rfl rfl (by rw [hpc]; rfl) rfl (by rw [hq]; rfl) (fun hd => ?_) ?_)
      · obtain ⟨queue, hqueue⟩ := hd
        cases hrest.symm.trans hqueue
      · rw [hran, hreports, hrest]
        exact .park ⟨fun _ htx => absurd htx List.not_mem_nil, fun _ => rfl⟩
    | park hpc =>
      rw [hpc] at hstand
      obtain ⟨hothers, hinbox, hearly, hreports⟩ := hstand.of_park
      refine .inl (h.turn hw rfl rfl (by rw [hpc]; rfl) rfl rfl id ?_)
      rw [hreports, hothers, hinbox]
      exact .recvTask hearly
    | takeAuthoring hpc hq =>
      rw [hpc, hq] at hstand
      obtain ⟨hothers, hinbox, hearly, hreports⟩ := hstand.of_recvTask
      have hrest := (queue_eq_cons hinbox).2
      refine .inl (h.turn hw rfl rfl (by rw [hpc]; rfl) rfl (by rw [hq]; rfl) (fun hd => ?_) ?_)
      · obtain ⟨queue, hqueue⟩ := hd
        cases hshare : pool.share w <;> rw [hshare] at hrest <;> cases hrest.symm.trans hqueue
      · rw [hreports, hothers, hrest, ← List.append_nil (ran w s.log)]
        have hshare : pool.share w = [] ++ pool.share w := rfl
        exact .depleting hearly hshare (.refl _) rfl rfl
    | takeTransaction hpc hq =>
      rename_i e f tx rest
      rw [hpc, hq] at hstand
      obtain ⟨hothers, hreports, early, before, txs, own, hran, hinbox, hearly, hshare, hown, he,
        hf⟩ := hstand.of_depleting
      obtain ⟨txs', rfl, hrest⟩ := orders_eq_transaction hinbox
      have htx : tx ∈ pool := by
        have hmem : tx ∈ pool.share w := by rw [hshare]; simp
        exact (List.mem_filter.mp hmem).1
      left
      refine h.take .pending hw rfl (by rw [hpc]; rfl) (by decide) ?_ ?_ ?_ ?_ ?_
      · simp only [Slot.held, hq]; rfl
      · intro slot' hs hs'
        cases slot' with
        | pending => exact absurd rfl hs
        | executing => exact absurd rfl hs'
        | _ => rfl
      · simp [Slot.attempts, hpool.initial tx htx]
      · exact fun v payload hp => hp
      · intro pc hpc'
        rw [hreports, hothers, hrest, hran]
        exact .first hpc' rfl hearly hshare hown he hf
    | distributionDone hpc hq =>
      rw [hpc, hq] at hstand
      obtain ⟨hothers, hreports, early, before, txs, own, hran, hinbox, hearly, hshare, hown, he,
        hf⟩ := hstand.of_depleting
      obtain ⟨rfl, hrest⟩ := orders_eq_done hinbox
      rw [List.append_nil] at hshare
      refine .inl (h.turn hw rfl rfl (by rw [hpc]; rfl) rfl (by rw [hq]; rfl) (fun hd => ?_) ?_)
      · obtain ⟨queue, hqueue⟩ := hd
        cases hrest.symm.trans hqueue
      · rw [hreports, hothers, hrest, hran]
        exact .reporting hearly (hshare ▸ hown) he (hshare ▸ hf)
    | report hpc => exact .inl (h.report hw hpc)
    | taskDone hpc hq =>
      rw [hpc, hq] at hstand
      rcases hstand.of_polling (.inl rfl) with ⟨hothers, hinbox, hearly, hreports⟩ | hreported
      · have hrest := (queue_eq_cons hinbox).2
        refine .inl (h.turn hw rfl rfl (by rw [hpc]; rfl) rfl (by rw [hq]; rfl) (fun hd => ?_) ?_)
        · obtain ⟨queue, hqueue⟩ := hd
          cases hrest.symm.trans hqueue
        · rw [hreports, hothers, hrest]
          exact .park hearly
      · cases hreported.2.1
    | pollMaster hpc hq =>
      exact .inl (h.turn hw rfl rfl (by rw [hpc]; rfl) rfl rfl id
        (hstand.polls (.inl hpc) (.inr rfl)))
    | pollOthers hpc =>
      exact .inl (h.turn hw rfl rfl (by rw [hpc]; rfl) rfl rfl id
        (hstand.polls (.inr hpc) (.inl rfl)))
    | takeForwarded hpc hq =>
      rename_i sender tx rest
      obtain ⟨t, ht, htag, hpay⟩ := hinv.queues sender (.transaction tx) (by rw [hq]; simp)
      cases hpay
      left
      refine h.take (.forwarded sender) hw rfl (by rw [hpc]; rfl) (by simp) ?_ ?_ rfl ?_ ?_
      · simp only [Slot.held, hq, Function.update_self]; rfl
      · intro slot' hs hs'
        cases slot' with
        | executing => exact absurd rfl hs'
        | forwarded sender' =>
          have hne : sender' ≠ sender := fun he => hs (he ▸ rfl)
          simp [Slot.held, hne]
        | _ => rfl
      · intro v payload hp
        change payload ∈ Function.update (s.worker w).fromOthers sender rest v at hp
        by_cases hv : v = sender
        · subst hv
          rw [Function.update_self] at hp
          rw [hq]
          exact List.mem_cons_of_mem _ hp
        · rwa [Function.update_of_ne hv] at hp
      · intro pc hpc'
        rcases hstand.of_polling (.inr hpc) with ⟨hothers, hinbox, hearly, hreports⟩ |
          ⟨hothers, hinbox, e, f, early, own, later, hran, hreports, hearly, hown, hlater, he, hf⟩
        · have hstale : ¬ fresh w := fun hfresh => by
            have hnone := (hinv.undisturbed hfresh ⟨_, hinbox⟩).1 sender
            rw [hq] at hnone
            cases hnone
          rw [hreports, hothers, hinbox]
          exact .zeroth hpc' rfl ⟨tx, ht, htag, rfl⟩ hstale hearly
        · rw [hran, hreports, hothers, hinbox]
          exact .second hpc' rfl ⟨tx, ht, htag, rfl⟩ hearly hown hlater he hf
    | unexpected hpc hq hpayload =>
      rw [hq] at hstand
      exact absurd (hstand.accepts hpc rfl) hpayload
    | unexpectedFromOthers hpc hq hpayload =>
      obtain ⟨t, -, -, hpay⟩ := hinv.queues _ _ (hq ▸ List.mem_cons_self ..)
      exact absurd hpay (hpayload t)
    | takeValidating hpc hq =>
      rw [hpc, hq] at hstand
      cases (queue_eq_cons hstand.of_recvTask.2.1).1
    | takeTerminate hpc hq =>
      rw [hpc, hq] at hstand
      cases (queue_eq_cons hstand.of_recvTask.2.1).1
    | access hpc => exact (outside (hpc.symm ▸ Pc.Executes.executing ..)).elim
    | accessRecheck hpc => exact (outside (hpc.symm ▸ Pc.Executes.recheck ..)).elim
    | beginCommit hpc => exact (outside (hpc.symm ▸ Pc.Executes.executing ..)).elim
    | commit hpc => exact (outside (hpc.symm ▸ Pc.Executes.committing ..)).elim
    | commitPanic hpc => exact (outside (hpc.symm ▸ Pc.Executes.committing ..)).elim
    | settle hres => exact (outside hres.executes).elim
    | fault hpc => exact (outside (hpc.symm ▸ Pc.Executes.executing ..)).elim
    | takeForValidation hpc | mistagged hpc | validationDone hpc | validateRead hpc
    | validateWrite hpc | validateEnd hpc | validateRefused hpc | validateFault hpc
    | sendValidationReport hpc =>
      exact (hstand.not_validates (hpc ▸ trivial)).elim

end Authoring
end SonicChain
