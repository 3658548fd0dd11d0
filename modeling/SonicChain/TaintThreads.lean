import SonicChain.State
import SonicChain.Transition

/-! # Threads over the taintable state

Any number of threads, each with an id of its own, call `read`, `write` and
`mutate`, and insert committed values under keys they own.  The scheduler may
switch threads between any two lock-protected sections.  The threads refine an
atomic store (`AtomicRun`): each call takes effect at its last section, as the
documented operation does; what is recorded of a thread is what its calls ask for,
one call after the other (`Served`); the panics between the sections are out of
reach; and a key that was ever granted to a thread is granted to no other one.
-/

namespace SonicChain
namespace TaintThreads
open TaintState

variable {K V T : Type}

/-- A call of a thread. -/
inductive Op (K V : Type) where
  | read (key : K)
  | write (key : K) (value : V)
  | mutate (key : K) (update : V → V)
  /-- `unsafe_insert(key, StateValue::new(value, id))`, on a key the thread owns. -/
  | commit (key : K) (value : V)

/-- Where a thread stands in its call.  A pending `read` remembers the closure
of the `mutate` it is part of, if it is. -/
inductive Pc (K V : Type) where
  | idle
  | readRecheck (key : K) (branch : Recheck) (update : Option (V → V))
  | mutateWrite (key : K) (value : V)
  | writeRecheck (key : K) (value : V) (branch : Recheck)
  | panicked (why : Panic)

/-- A completed operation with the answer the thread got. -/
inductive Event (K V T : Type) where
  | read (thread : T) (key : K) (outcome : Except T V)
  | write (thread : T) (key : K) (value : V) (outcome : Except T Unit)
  | commit (thread : T) (key : K) (value : V)

namespace Event

def thread : Event K V T → T
  | .read t _ _ => t
  | .write t _ _ _ => t
  | .commit t _ _ => t

def key : Event K V T → K
  | .read _ k _ => k
  | .write _ k _ _ => k
  | .commit _ k _ => k

/-- The owner the operation was refused for; `none` if it got `Ok`. -/
def refusedFor : Event K V T → Option T
  | .read _ _ (.error o) => some o
  | .write _ _ _ (.error o) => some o
  | _ => none

end Event

/-- The shared map, the control point of each thread, and the completed
operations so far, which no step reads. -/
structure Threads (K V T : Type) where
  backend : StateType K V T
  pc : T → Pc K V
  log : List (Event K V T)

/-- All threads are between calls. -/
def initial (m : StateType K V T) : Threads K V T := ⟨m, fun _ => .idle, []⟩

/-- The scheduler lets thread `t` start a call or go on with its pending one. -/
inductive Action (K V T : Type) where
  | start (t : T) (op : Op K V)
  | resume (t : T)

def Action.thread : Action K V T → T
  | .start t _ => t
  | .resume t => t

variable [DecidableEq K] [DecidableEq T]

/-- The thread's `read` has its answer: a `mutate` goes on to its write. -/
def finishRead (s : Threads K V T) (t : T) (key : K) (update : Option (V → V))
    (outcome : Except T V) (m : StateType K V T) : Threads K V T :=
  let pc := match update, outcome with
    | some f, .ok value => .mutateWrite key (f value)
    | _, _ => .idle
  ⟨m, Function.update s.pc t pc, s.log ++ [.read t key outcome]⟩

def finishWrite (s : Threads K V T) (t : T) (key : K) (value : V)
    (outcome : Except T Unit) (m : StateType K V T) : Threads K V T :=
  ⟨m, Function.update s.pc t .idle, s.log ++ [.write t key value outcome]⟩

/-- Thread `t` takes the read lock for `read`. -/
def startRead (s : Threads K V T) (t : T) (key : K) (update : Option (V → V)) : Threads K V T :=
  match readSection s.backend key t with
  | .inr outcome => finishRead s t key update outcome s.backend
  | .inl branch => { s with pc := Function.update s.pc t (.readRecheck key branch update) }

/-- Thread `t` takes the read lock for `write`. -/
def startWrite (s : Threads K V T) (t : T) (key : K) (value : V) : Threads K V T :=
  match writeSection s.backend key value t with
  | .inr (outcome, m) => finishWrite s t key value outcome m
  | .inl branch => { s with pc := Function.update s.pc t (.writeRecheck key value branch) }

variable [Inhabited V]

/-- One lock-protected section of one thread. -/
def step (s : Threads K V T) : Action K V T → Option (Threads K V T)
  | .start t op =>
    match s.pc t, op with
    | .idle, .read key => some (startRead s t key none)
    | .idle, .write key value => some (startWrite s t key value)
    | .idle, .mutate key update => some (startRead s t key (some update))
    | .idle, .commit key value =>
      if s.backend.taint key = some t then
        some { s with
          backend := unsafeInsert s.backend key (.new value t)
          log := s.log ++ [.commit t key value] }
      else none
    | _, _ => none
  | .resume t =>
    match s.pc t with
    | .readRecheck key branch update =>
      match readRecheck branch s.backend key t with
      | .ok (outcome, m) => some (finishRead s t key update outcome m)
      | .error why => some { s with pc := Function.update s.pc t (.panicked why) }
    | .mutateWrite key value => some (startWrite s t key value)
    | .writeRecheck key value branch =>
      match writeRecheck branch s.backend key value t with
      | .ok (outcome, m) => some (finishWrite s t key value outcome m)
      | .error why => some { s with pc := Function.update s.pc t (.panicked why) }
    | .idle => none
    | .panicked _ => none

/-! ## The atomic store -/

/-- The documented operation takes `m` to `m'` and gives the recorded answer. -/
def Event.Atomic (m : StateType K V T) (m' : StateType K V T) : Event K V T → Prop
  | .read t key outcome => atomicRead m key t = (outcome, m')
  | .write t key value outcome => atomicWrite m key value t = (outcome, m')
  | .commit t key value => m.taint key = some t ∧ m' = m.insert key ⟨value, some t⟩

/-- The recorded operations, done atomically one after the other, take `m` to
`m'`. -/
inductive AtomicRun (m : StateType K V T) : List (Event K V T) → StateType K V T → Prop where
  | nil : AtomicRun m [] m
  | snoc {log : List (Event K V T)} {m₁ m₂ : StateType K V T} {e : Event K V T} :
      AtomicRun m log m₁ → e.Atomic m₁ m₂ → AtomicRun m (log ++ [e]) m₂

/-- What an operation leaves under a key: an owned key keeps its owner, and the
operation's own key has the owner it was refused for, or goes to its thread. -/
theorem Event.Atomic.taints {m m' : StateType K V T} {e : Event K V T} (h : e.Atomic m m') :
    (∀ k o, m.taint k = some o → m'.taint k = some o) ∧
      match e.refusedFor with
      | none => m'.taint e.key = some e.thread
      | some o => m'.taint e.key = some o ∧ o ≠ e.thread := by
  have keep : ∀ {key : K} {x : StateValue V T}, m.taint key = none ∨ m.taint key = x.taint →
      ∀ k o, m.taint k = some o → (m.insert key x).taint k = some o := by
    intro key x hx k o hk
    by_cases he : k = key
    · subst he
      rcases hx with hx | hx
      · rw [hx] at hk; cases hk
      · simpa [← hx] using hk
    · simpa [he] using hk
  cases e with
  | read t key outcome =>
    simp only [Event.Atomic, atomicRead] at h
    cases ht : m.taint key with
    | none =>
      simp only [ht, Prod.mk.injEq] at h
      obtain ⟨rfl, rfl⟩ := h
      exact ⟨keep (.inl ht), by simp [refusedFor, Event.key, thread]⟩
    | some o =>
      simp only [ht, Prod.mk.injEq] at h
      obtain ⟨rfl, rfl⟩ := h
      refine ⟨fun _ _ hk => hk, ?_⟩
      by_cases ho : o = t <;> simp [ho, refusedFor, Event.key, thread, ht]
  | write t key value outcome =>
    simp only [Event.Atomic, atomicWrite] at h
    cases ht : m.taint key with
    | none =>
      simp only [ht, Prod.mk.injEq] at h
      obtain ⟨rfl, rfl⟩ := h
      exact ⟨keep (.inl ht), by simp [refusedFor, Event.key, thread]⟩
    | some o =>
      by_cases ho : o = t
      · subst ho
        simp only [ht, ↓reduceIte, Prod.mk.injEq] at h
        obtain ⟨rfl, rfl⟩ := h
        exact ⟨keep (.inr ht), by simp [refusedFor, Event.key, thread]⟩
      · simp only [ht, ho, ↓reduceIte, Prod.mk.injEq] at h
        obtain ⟨rfl, rfl⟩ := h
        exact ⟨fun _ _ hk => hk, by simp [refusedFor, Event.key, thread, ht, ho]⟩
  | commit t key value =>
    obtain ⟨ht, rfl⟩ := h
    exact ⟨keep (.inr ht), by simp [refusedFor, Event.key, thread]⟩

/-- Every operation of an atomic run agrees with the owners at its end. -/
theorem AtomicRun.owner {m m' : StateType K V T} {log : List (Event K V T)}
    (h : AtomicRun m log m') : ∀ e ∈ log,
      match e.refusedFor with
      | none => m'.taint e.key = some e.thread
      | some o => m'.taint e.key = some o ∧ o ≠ e.thread := by
  induction h with
  | nil => nofun
  | snoc _ hat ih =>
    intro e he
    rcases List.mem_append.mp he with he | he
    · have hold := ih e he
      cases hr : e.refusedFor with
      | none => rw [hr] at hold; exact hat.taints.1 _ _ hold
      | some o => rw [hr] at hold; exact ⟨hat.taints.1 _ _ hold.1, hold.2⟩
    · obtain rfl := List.mem_singleton.mp he
      exact hat.taints.2

/-! ## Calls and their operations -/

/-- The calls that thread `t` starts in a schedule. -/
def callsOf (t : T) : List (Action K V T) → List (Op K V)
  | [] => []
  | .start t' op :: as => if t' = t then op :: callsOf t as else callsOf t as
  | .resume _ :: as => callsOf t as

/-- What a finished call of thread `t` has done: the operation it names, with the key,
the value and the thread of the call.  A `mutate` whose read was granted has written the
update of what it read; one whose read was refused has not written. -/
def Op.Answered (t : T) : Op K V → List (Event K V T) → Prop
  | .read key, events => ∃ outcome, events = [.read t key outcome]
  | .write key value, events => ∃ outcome, events = [.write t key value outcome]
  | .commit key value, events => events = [.commit t key value]
  | .mutate key update, events =>
    (∃ owner, events = [.read t key (.error owner)]) ∨
      ∃ value, events = [.read t key (.ok value), .write t key (update value) (.ok ())]

/-- The call that a thread at the control point is in, with what it has done so far. -/
inductive Pc.Pending (t : T) : Pc K V → Op K V → List (Event K V T) → Prop
  | read {key : K} {branch : Recheck} : Pending t (.readRecheck key branch none) (.read key) []
  | mutateRead {key : K} {branch : Recheck} {update : V → V} :
    Pending t (.readRecheck key branch (some update)) (.mutate key update) []
  | mutateWrite {key : K} {update : V → V} {value : V} :
    Pending t (.mutateWrite key (update value)) (.mutate key update) [.read t key (.ok value)]
  | write {key : K} {value : V} {branch : Recheck} :
    Pending t (.writeRecheck key value branch) (.write key value) []

/-- The operations on record are those of the thread's calls, in order: each of the
finished calls has done its own, and nothing else was done; the last call may still be
pending. -/
def Served (t : T) (calls : List (Op K V)) (events : List (Event K V T)) (pc : Pc K V) : Prop :=
  ∃ done answers, List.Forall₂ (Op.Answered t) done answers ∧
    (pc = .idle ∧ calls = done ∧ events = answers.flatten ∨
      ∃ op part, pc.Pending t op part ∧ calls = done ++ [op] ∧ events = answers.flatten ++ part)

/-- The call goes on from a section of its thread: it is answered, or pending. -/
def Goes (t : T) (op : Op K V) (events : List (Event K V T)) (pc : Pc K V) : Prop :=
  pc = .idle ∧ op.Answered t events ∨ pc.Pending t op events

omit [DecidableEq K] [DecidableEq T] [Inhabited V] in
theorem Served.idle {t : T} {calls : List (Op K V)} {events : List (Event K V T)}
    (h : Served t calls events .idle) : ∃ answers, List.Forall₂ (Op.Answered t) calls answers ∧
      events = answers.flatten := by
  obtain ⟨done, answers, hanswers, ⟨-, rfl, hevents⟩ | ⟨op, part, hpending, -⟩⟩ := h
  · exact ⟨answers, hanswers, hevents⟩
  · cases hpending

omit [DecidableEq K] [DecidableEq T] [Inhabited V] in
/-- What a call has come to, after the calls before it. -/
theorem Served.of_goes {t : T} {calls : List (Op K V)} {answers : List (List (Event K V T))}
    {op : Op K V} {events : List (Event K V T)} {pc : Pc K V}
    (h : List.Forall₂ (Op.Answered t) calls answers) (hgoes : Goes t op events pc) :
    Served t (calls ++ [op]) (answers.flatten ++ events) pc := by
  rcases hgoes with ⟨rfl, hanswered⟩ | hpending
  · refine ⟨calls ++ [op], answers ++ [events], ?_, .inl ⟨rfl, rfl, by simp⟩⟩
    exact List.rel_append h (.cons hanswered .nil)
  · exact ⟨calls, answers, h, .inr ⟨op, events, hpending, rfl, rfl⟩⟩

/-! ## The threads refine it -/

/-- What holds at every control point. -/
def Pc.Ok (m : StateType K V T) (t : T) : Pc K V → Prop
  | .idle => True
  | .readRecheck key branch _ => branch.Pending m key t
  | .mutateWrite key _ => m.taint key = some t
  | .writeRecheck key _ branch => branch.Pending m key t
  | .panicked _ => False

/-- The other threads' operations leave a thread's control point valid. -/
theorem Event.Atomic.pcOk {m m' : StateType K V T} {e : Event K V T} (h : e.Atomic m m') {t : T}
    (ht : e.thread ≠ t) {pc : Pc K V} (hpc : pc.Ok m t) : pc.Ok m' t := by
  have pending : ∀ {branch : Recheck} {key : K}, branch.Pending m key t →
      branch.Pending m' key t := by
    intro branch key hb
    cases e with
    | read t' key' outcome =>
      simp only [Event.Atomic, atomicRead] at h
      split at h
      · obtain ⟨-, rfl⟩ := Prod.mk.inj h
        exact hb
      · obtain ⟨-, rfl⟩ := Prod.mk.inj h
        exact hb.insert _ (by simp) (fun he => ht (Option.some.inj he))
    | write t' key' value outcome =>
      simp only [Event.Atomic, atomicWrite] at h
      split at h
      · split at h
        · obtain ⟨-, rfl⟩ := Prod.mk.inj h
          exact hb.insert _ (by simp) (fun he => ht (Option.some.inj he))
        · obtain ⟨-, rfl⟩ := Prod.mk.inj h
          exact hb
      · obtain ⟨-, rfl⟩ := Prod.mk.inj h
        exact hb.insert _ (by simp) (fun he => ht (Option.some.inj he))
    | commit t' key' value =>
      obtain ⟨-, rfl⟩ := h
      exact hb.insert _ (by simp) (fun he => ht (Option.some.inj he))
  cases pc with
  | idle => trivial
  | readRecheck key branch update => exact pending hpc
  | mutateWrite key value => exact h.taints.1 _ _ hpc
  | writeRecheck key value branch => exact pending hpc
  | panicked why => exact hpc

/-- What one section of thread `t` does: the thread waits for the write lock, or
completes an operation just as the atomic store does.  Its next control point
is valid. -/
def Advances (s s' : Threads K V T) (t : T) : Prop :=
  ∃ pc, s'.pc = Function.update s.pc t pc ∧ pc.Ok s'.backend t ∧
    (s'.backend = s.backend ∧ s'.log = s.log ∨
      ∃ e, e.thread = t ∧ s'.log = s.log ++ [e] ∧ e.Atomic s.backend s'.backend)

theorem finishRead_advances {s : Threads K V T} {t : T} {key : K} {update : Option (V → V)}
    {outcome : Except T V} {m : StateType K V T}
    (h : atomicRead s.backend key t = (outcome, m)) :
    Advances s (finishRead s t key update outcome m) t := by
  have hev : (Event.read t key outcome : Event K V T).Atomic s.backend m := h
  refine ⟨_, rfl, ?_, .inr ⟨_, rfl, rfl, hev⟩⟩
  cases update with
  | none => trivial
  | some f =>
    cases outcome with
    | error o => trivial
    | ok value => exact hev.taints.2

theorem finishWrite_advances {s : Threads K V T} {t : T} {key : K} {value : V}
    {outcome : Except T Unit} {m : StateType K V T}
    (h : atomicWrite s.backend key value t = (outcome, m)) :
    Advances s (finishWrite s t key value outcome m) t :=
  ⟨.idle, rfl, trivial, .inr ⟨.write t key value outcome, rfl, rfl, h⟩⟩

theorem startRead_advances (s : Threads K V T) (t : T) (key : K) (update : Option (V → V)) :
    Advances s (startRead s t key update) t := by
  unfold startRead
  split
  · rename_i outcome ho
    exact finishRead_advances (readSection_done ho)
  · rename_i branch hb
    exact ⟨_, rfl, Recheck.Pending.of_readSection hb, .inl ⟨rfl, rfl⟩⟩

theorem startWrite_advances (s : Threads K V T) (t : T) (key : K) (value : V) :
    Advances s (startWrite s t key value) t := by
  unfold startWrite
  split
  · rename_i outcome m ho
    exact finishWrite_advances (writeSection_done ho)
  · rename_i branch hb
    exact ⟨_, rfl, Recheck.Pending.of_writeSection hb, .inl ⟨rfl, rfl⟩⟩

theorem step_advances {s s' : Threads K V T} {a : Action K V T} (h : step s a = some s')
    (hs : ∀ t, (s.pc t).Ok s.backend t) : Advances s s' a.thread := by
  cases a with
  | start t op =>
    simp only [step] at h
    split at h
    · exact Option.some.inj h ▸ startRead_advances s t _ none
    · exact Option.some.inj h ▸ startWrite_advances s t _ _
    · exact Option.some.inj h ▸ startRead_advances s t _ (some _)
    · rename_i key value hpc
      split at h
      · rename_i ht
        obtain rfl := Option.some.inj h
        refine ⟨.idle, ?_, trivial, .inr ⟨.commit t key value, rfl, rfl, ht, rfl⟩⟩
        exact (Function.update_eq_self_iff.mpr hpc.symm).symm
      · cases h
    · cases h
  | resume t =>
    have ht := hs t
    simp only [step] at h
    split at h
    · rename_i key branch update hpc
      rw [hpc] at ht
      rw [readRecheck_eq ht] at h
      exact Option.some.inj h ▸ finishRead_advances rfl
    · exact Option.some.inj h ▸ startWrite_advances s t _ _
    · rename_i key value branch hpc
      rw [hpc] at ht
      rw [writeRecheck_eq ht] at h
      exact Option.some.inj h ▸ finishWrite_advances rfl
    · cases h
    · cases h

/-- The simulation: every control point is valid, and the completed operations
take the initial map to the current one atomically. -/
structure Refines (m : StateType K V T) (s : Threads K V T) : Prop where
  pcs : ∀ t, (s.pc t).Ok s.backend t
  atomic : AtomicRun m s.log s.backend

theorem refines_initial (m : StateType K V T) : Refines m (initial m) :=
  ⟨fun _ => trivial, .nil⟩

theorem refines_step {m : StateType K V T} {s s' : Threads K V T} {a : Action K V T}
    (hs : Refines m s) (h : step s a = some s') : Refines m s' := by
  obtain ⟨pc, hpc, hok, hcase⟩ := step_advances h hs.pcs
  have others : ∀ q, q ≠ a.thread → (s.pc q).Ok s'.backend q := by
    intro q hq
    rcases hcase with ⟨hb, -⟩ | ⟨e, he, -, hat⟩
    · rw [hb]; exact hs.pcs q
    · exact hat.pcOk (fun h => hq (h.symm.trans he)) (hs.pcs q)
  constructor
  · intro q
    rw [hpc]
    by_cases hq : q = a.thread
    · subst hq; simpa using hok
    · simpa [hq] using others q hq
  · rcases hcase with ⟨hb, hl⟩ | ⟨e, -, hl, hat⟩
    · rw [hb, hl]; exact hs.atomic
    · rw [hl]; exact hs.atomic.snoc hat

theorem refines_exec {m : StateType K V T} {as : List (Action K V T)} {s : Threads K V T}
    (h : Transition.exec step as (initial m) = some s) : Refines m s :=
  Transition.exec_invariant (fun _ _ _ => refines_step) h (refines_initial m)

/-- The write of a `mutate` that owns its key succeeds in its first section. -/
theorem step_mutateWrite {s : Threads K V T} {t : T} {key : K} {value : V}
    (hpc : s.pc t = .mutateWrite key value) (ht : s.backend.taint key = some t) :
    step s (.resume t) =
      some (finishWrite s t key value (.ok ()) (s.backend.insert key ⟨value, some t⟩)) := by
  simp [step, hpc, startWrite, writeSection, StateType.lookup_of_taint ht]

/-! ## Each thread does what its calls ask for -/

/-- What one section of thread `t` puts on record, and where it leaves the thread. -/
structure Moves (s s' : Threads K V T) (t : T) (events : List (Event K V T)) (pc : Pc K V) :
    Prop where
  pc : s'.pc = Function.update s.pc t pc
  log : s'.log = s.log ++ events
  thread : ∀ e ∈ events, e.thread = t

/-- A `read` is on its own, or part of a `mutate`. -/
def readOp (key : K) : Option (V → V) → Op K V
  | none => .read key
  | some update => .mutate key update

omit [DecidableEq K] [Inhabited V] in
theorem finishRead_goes (s : Threads K V T) (t : T) (key : K) (update : Option (V → V))
    (outcome : Except T V) (m : StateType K V T) :
    ∃ events pc, Moves s (finishRead s t key update outcome m) t events pc ∧
      Goes t (readOp key update) events pc := by
  refine ⟨[.read t key outcome], _, ⟨rfl, rfl, fun e he => ?_⟩, ?_⟩
  · rw [List.mem_singleton.mp he]
    rfl
  · cases update with
    | none => exact .inl ⟨rfl, outcome, rfl⟩
    | some f =>
      cases outcome with
      | error owner => exact .inl ⟨rfl, .inl ⟨owner, rfl⟩⟩
      | ok value => exact .inr .mutateWrite

omit [DecidableEq K] [Inhabited V] in
theorem finishWrite_moves (s : Threads K V T) (t : T) (key : K) (value : V)
    (outcome : Except T Unit) (m : StateType K V T) :
    Moves s (finishWrite s t key value outcome m) t [.write t key value outcome] .idle := by
  refine ⟨rfl, rfl, fun e he => ?_⟩
  rw [List.mem_singleton.mp he]
  rfl

omit [Inhabited V] in
theorem startRead_goes (s : Threads K V T) (t : T) (key : K) (update : Option (V → V)) :
    ∃ events pc, Moves s (startRead s t key update) t events pc ∧
      Goes t (readOp key update) events pc := by
  unfold startRead
  split
  · exact finishRead_goes ..
  · refine ⟨[], _, ⟨rfl, (List.append_nil _).symm, fun _ he => absurd he List.not_mem_nil⟩, ?_⟩
    cases update with
    | none => exact .inr .read
    | some f => exact .inr .mutateRead

omit [Inhabited V] in
theorem startWrite_goes (s : Threads K V T) (t : T) (key : K) (value : V) :
    ∃ events pc, Moves s (startWrite s t key value) t events pc ∧
      Goes t (.write key value) events pc := by
  unfold startWrite
  split
  · exact ⟨_, _, finishWrite_moves .., .inl ⟨rfl, _, rfl⟩⟩
  · exact ⟨[], _, ⟨rfl, (List.append_nil _).symm, fun _ he => absurd he List.not_mem_nil⟩,
      .inr .write⟩

/-- What a section does for the call that its thread starts, or is in. -/
def Action.Serves (s : Threads K V T) (events : List (Event K V T)) (pc : Pc K V) :
    Action K V T → Prop
  | .start t op => s.pc t = .idle ∧ Goes t op events pc
  | .resume t => s.pc t ≠ .idle ∧
    ∀ op part, (s.pc t).Pending t op part → Goes t op (part ++ events) pc

/-- **Each section goes on with the call of its thread.** -/
theorem step_serves {s s' : Threads K V T} {a : Action K V T} (h : step s a = some s')
    (hs : ∀ t, (s.pc t).Ok s.backend t) :
    ∃ events pc, Moves s s' a.thread events pc ∧ a.Serves s events pc := by
  cases a with
  | start t op =>
    simp only [step] at h
    split at h
    · rename_i key hpc
      obtain ⟨events, pc, hmoves, hgoes⟩ := startRead_goes s t key none
      exact ⟨events, pc, Option.some.inj h ▸ hmoves, hpc, hgoes⟩
    · rename_i key value hpc
      obtain ⟨events, pc, hmoves, hgoes⟩ := startWrite_goes s t key value
      exact ⟨events, pc, Option.some.inj h ▸ hmoves, hpc, hgoes⟩
    · rename_i key update hpc
      obtain ⟨events, pc, hmoves, hgoes⟩ := startRead_goes s t key (some update)
      exact ⟨events, pc, Option.some.inj h ▸ hmoves, hpc, hgoes⟩
    · rename_i key value hpc
      split at h
      · obtain rfl := Option.some.inj h
        refine ⟨[.commit t key value], .idle, ⟨?_, rfl, fun e he => ?_⟩, hpc, .inl ⟨rfl, rfl⟩⟩
        · exact (Function.update_eq_self_iff.mpr hpc.symm).symm
        · rw [List.mem_singleton.mp he]
          rfl
      · cases h
    · cases h
  | resume t =>
    have ht := hs t
    simp only [step] at h
    split at h
    · rename_i key branch update hpc
      rw [hpc] at ht
      rw [readRecheck_eq ht] at h
      obtain ⟨events, pc, hmoves, hgoes⟩ := finishRead_goes s t key update
        (atomicRead s.backend key t).1 (atomicRead s.backend key t).2
      refine ⟨events, pc, Option.some.inj h ▸ hmoves, by rw [hpc]; nofun, fun op part hpending => ?_⟩
      rw [hpc] at hpending
      cases hpending with
      | read => exact hgoes
      | mutateRead => exact hgoes
    · rename_i key value hpc
      rw [hpc] at ht
      have hfinish := step_mutateWrite hpc ht
      rw [step, hpc] at hfinish
      obtain rfl := Option.some.inj (h.symm.trans hfinish)
      refine ⟨_, _, finishWrite_moves .., by rw [hpc]; nofun, fun op part hpending => ?_⟩
      rw [hpc] at hpending
      cases hpending with
      | mutateWrite => exact .inl ⟨rfl, .inr ⟨_, rfl⟩⟩
    · rename_i key value branch hpc
      rw [hpc] at ht
      rw [writeRecheck_eq ht] at h
      obtain rfl := Option.some.inj h
      refine ⟨_, _, finishWrite_moves .., by rw [hpc]; nofun, fun op part hpending => ?_⟩
      rw [hpc] at hpending
      cases hpending with
      | write => exact .inl ⟨rfl, _, rfl⟩
    · cases h
    · cases h

omit [DecidableEq K] [Inhabited V] in
theorem callsOf_append (t : T) (as bs : List (Action K V T)) :
    callsOf t (as ++ bs) = callsOf t as ++ callsOf t bs := by
  induction as with
  | nil => rfl
  | cons a as ih =>
    cases a with
    | start t' op =>
      rw [List.cons_append, callsOf, callsOf, ih]
      split <;> rfl
    | resume t' => exact ih

/-- The operations of thread `t`. -/
def eventsOf (t : T) (log : List (Event K V T)) : List (Event K V T) :=
  log.filter fun e => e.thread = t

omit [DecidableEq K] [Inhabited V] in
theorem eventsOf_append (t : T) (log events : List (Event K V T)) :
    eventsOf t (log ++ events) = eventsOf t log ++ eventsOf t events := List.filter_append ..

/-- **A section keeps every thread served.** -/
theorem Served.step {s s' : Threads K V T} {a : Action K V T} {t : T} {calls : List (Op K V)}
    (h : Served t calls (eventsOf t s.log) (s.pc t)) (ha : step s a = some s')
    (hs : ∀ t, (s.pc t).Ok s.backend t) :
    Served t (calls ++ callsOf t [a]) (eventsOf t s'.log) (s'.pc t) := by
  obtain ⟨events, pc, hmoves, hserves⟩ := step_serves ha hs
  rw [hmoves.pc, hmoves.log, eventsOf_append]
  by_cases hat : a.thread = t
  · subst hat
    have hown : eventsOf a.thread events = events :=
      List.filter_eq_self.mpr fun e he => decide_eq_true (hmoves.thread e he)
    rw [hown, Function.update_self]
    cases a with
    | start t op =>
      obtain ⟨hidle, hgoes⟩ := hserves
      simp only [Action.thread] at h ⊢
      rw [hidle] at h
      obtain ⟨answers, hanswers, hevents⟩ := h.idle
      rw [callsOf, if_pos rfl, callsOf, hevents]
      exact Served.of_goes hanswers hgoes
    | resume t =>
      obtain ⟨hpending, hgoes⟩ := hserves
      simp only [Action.thread] at h ⊢
      obtain ⟨done, answers, hanswers, ⟨hidle, -⟩ | ⟨op, part, hop, rfl, hevents⟩⟩ := h
      · exact absurd hidle hpending
      · rw [callsOf, callsOf, List.append_nil, hevents, List.append_assoc]
        exact Served.of_goes hanswers (hgoes op part hop)
  · have hnone : eventsOf t events = [] :=
      List.filter_eq_nil_iff.mpr fun e he => by
        rw [hmoves.thread e he]
        simpa using hat
    have hcalls : callsOf t [a] = [] := by
      cases a with
      | start t' op => exact if_neg hat
      | resume t' => rfl
    rw [hnone, hcalls, List.append_nil, List.append_nil, Function.update_of_ne (Ne.symm hat)]
    exact h

/-- Every thread is served, whatever the schedule. -/
theorem served_exec {m : StateType K V T} {as : List (Action K V T)} {s : Threads K V T}
    (h : Transition.exec step as (initial m) = some s) (t : T) :
    Served t (callsOf t as) (eventsOf t s.log) (s.pc t) := by
  induction as using List.reverseRecOn generalizing s with
  | nil =>
    obtain rfl := Option.some.inj h
    exact ⟨[], [], .nil, .inl ⟨rfl, rfl, rfl⟩⟩
  | append_singleton as a ih =>
    rw [Transition.exec_append, Option.bind_eq_some_iff] at h
    obtain ⟨mid, hmid, h⟩ := h
    obtain ⟨last, ha, hlast⟩ := Transition.exec_cons h
    obtain rfl := Option.some.inj hlast
    rw [callsOf_append]
    exact (ih hmid).step ha (refines_exec hmid).pcs

/-- **`TaintState` refines the atomic store.**  In every state that any schedule
of any threads reaches from any map: no thread has panicked; the recorded
operations, done atomically in the order of their last sections, give the
recorded answers and lead to the current map; each thread's operations on record
are those its calls ask for, in order, a finished `mutate` having written the
update of the value it read; a further section either changes nothing or is one
such operation of its own thread; owners never change; all operations on a key
that one thread was granted succeed for that thread and are refused with its id
for every other thread; and a `mutate` that has read writes at once. -/
theorem threads_refine_atomic_store (m : StateType K V T) (as : List (Action K V T))
    {s : Threads K V T} (h : Transition.exec step as (initial m) = some s) :
    (∀ t why, s.pc t ≠ .panicked why) ∧
    AtomicRun m s.log s.backend ∧
    (∀ t, Served t (callsOf t as) (eventsOf t s.log) (s.pc t)) ∧
    (∀ a s', step s a = some s' →
      (s'.backend = s.backend ∧ s'.log = s.log ∨
        ∃ e, e.thread = a.thread ∧ s'.log = s.log ++ [e] ∧ e.Atomic s.backend s'.backend) ∧
      ∀ k o, s.backend.taint k = some o → s'.backend.taint k = some o) ∧
    (∀ e ∈ s.log, ∀ e' ∈ s.log, e'.key = e.key → e.refusedFor = none →
      e'.refusedFor = if e'.thread = e.thread then none else some e.thread) ∧
    (∀ t key value, s.pc t = .mutateWrite key value →
      ∃ s', step s (.resume t) = some s' ∧ s'.log = s.log ++ [.write t key value (.ok ())]) := by
  have hs := refines_exec h
  refine ⟨fun t why hp => ?_, hs.atomic, served_exec h, fun a s' ha => ?_,
    fun e he e' he' hk hr => ?_, fun t key value hpc => ?_⟩
  · have ht := hs.pcs t
    rw [hp] at ht
    exact ht
  · obtain ⟨pc, -, -, ⟨hb, hl⟩ | ⟨e, he, hl, hat⟩⟩ := step_advances ha hs.pcs
    · exact ⟨.inl ⟨hb, hl⟩, by rw [hb]; exact fun _ _ hk => hk⟩
    · exact ⟨.inr ⟨e, he, hl, hat⟩, hat.taints.1⟩
  · have ho := hs.atomic.owner e he
    have ho' := hs.atomic.owner e' he'
    simp only [hr] at ho
    rw [hk] at ho'
    cases hr' : e'.refusedFor with
    | none =>
      rw [hr'] at ho'
      have : e'.thread = e.thread := Option.some.inj (ho'.symm.trans ho)
      simp [this]
    | some o =>
      rw [hr'] at ho'
      have heq : o = e.thread := Option.some.inj (ho'.1.symm.trans ho)
      subst heq
      simp [Ne.symm ho'.2]
  · have ht := hs.pcs t
    rw [hpc] at ht
    exact ⟨_, step_mutateWrite hpc ht, rfl⟩

/-- Three threads race for one key, all past their read lock before the first
takes the write lock. -/
def race : List (Action Nat Nat Nat) :=
  [.start 1 (.read 10), .start 2 (.write 10 7), .start 3 (.mutate 10 (· + 1)), .resume 3,
    .resume 1, .resume 2, .resume 3, .start 3 (.commit 10 5), .start 1 (.read 10)]

/-- The first thread to take the write lock owns the key from then on, and each thread
has got an answer to each of its calls. -/
theorem race_refines_atomic_store :
    ∃ s : Threads Nat Nat Nat, Transition.exec step race (initial ∅) = some s ∧
      s.log.map Event.refusedFor = [none, some 3, some 3, none, none, some 3] ∧
      s.backend.lookup 10 = some ⟨5, some 3⟩ ∧
      AtomicRun ∅ s.log s.backend ∧
      ∀ t, Served t (callsOf t race) (eventsOf t s.log) (s.pc t) := by
  refine ⟨_, rfl, rfl, ?_, (threads_refine_atomic_store ∅ race rfl).2.1,
    (threads_refine_atomic_store ∅ race rfl).2.2.1⟩
  decide

end TaintThreads
end SonicChain
