import SonicChain.Runtimes

/-! # Transactions, messages and the pool

The types the executor's threads exchange, and the transaction pool.  A message
carries no sender here: each channel has one queue for each sender.
-/

namespace SonicChain

/-- Status of a transaction in a block. -/
inductive ExecutionTag where
  /-- Done by the given thread. -/
  | done (by_whom : ThreadId)
  /-- Ended up being an orphan. -/
  | orphan
  /-- Not yet executed. -/
  | notExecuted
  deriving DecidableEq, Repr

theorem ExecutionTag.done_injective : Function.Injective ExecutionTag.done :=
  fun _ _ h => ExecutionTag.done.inj h

inductive ExecutionStatus where
  /-- It has just been created. -/
  | initial
  /-- Has already been forwarded by one thread. -/
  | forwarded
  deriving DecidableEq, Repr

/-- The type of the tasks that the master can order the worker to do. -/
inductive TaskType where
  | authoring
  | validating
  deriving DecidableEq, Repr

variable [Ed25519]

structure Transaction where
  id : TransactionId
  tag : ExecutionTag
  execStatus : ExecutionStatus
  function : OuterCall
  signature : AccountId × Ed25519.Signature

namespace Transaction

def new (id : TransactionId) (call : OuterCall) (origin : AccountId)
    (signedCall : Ed25519.Signature) : Transaction :=
  { id, tag := .notExecuted, execStatus := .initial, function := call,
    signature := (origin, signedCall) }

/-- The origin signed the encoded call. -/
def verify (tx : Transaction) : Except Panic Bool := do
  let payload ← tx.function.encode
  return Ed25519.verify tx.signature.1.bytes payload tx.signature.2

/-- The body of the call that the transaction makes. -/
def code (tx : Transaction) : Storage (Except DispatchError Unit) :=
  (tx.function.dispatch tx.signature.1).run

/-- What does not change in a transaction from hand to hand. -/
def content (tx : Transaction) : TransactionId × OuterCall × AccountId × Ed25519.Signature :=
  (tx.id, tx.function, tx.signature)

end Transaction

inductive MessagePayload where
  /-- Data needed to finalize the setup: the workers that can be sent to. -/
  | finalizeSetup (workers : List ThreadId)
  | task (t : TaskType)
  | transaction (tx : Transaction)
  /-- Initial transactions that the master distributed to the worker are done. -/
  | transactionDistributionDone
  /-- The numbers of executed and forwarded transactions. -/
  | authoringReport (executed forwarded : Nat)
  | validationReport
  | workerExecuted (id : TransactionId)
  | workerOrphan (id : TransactionId)
  | taskDone
  | terminate

/-! ## The pool -/

/-- `VecPool`: the transactions in order. -/
abbrev Pool := List Transaction

namespace Pool

def pushBack (pool : Pool) (tx : Transaction) : Except Panic Pool := do
  if ← tx.verify then return pool ++ [tx]
  else .error (.message "Attempted to insert invalid transaction to the pool.")

def pushBatch (pool : Pool) : List Transaction → Except Panic Pool
  | [] => .ok pool
  | tx :: txs => do pushBatch (← pushBack pool tx) txs

/-- Find the first element that matches, and remove it. -/
def remove (search : Transaction → Bool) : Pool → Option (Transaction × Pool)
  | [] => none
  | tx :: pool =>
    if search tx then some (tx, pool)
    else
      match remove search pool with
      | some (found, rest) => some (found, tx :: rest)
      | none => none

end Pool

/-- Every transaction passes the pool's check. -/
def AllVerified (txs : List Transaction) : Prop := ∀ tx ∈ txs, tx.verify = .ok true

instance (txs : List Transaction) : Decidable (AllVerified txs) :=
  inferInstanceAs (Decidable (∀ tx ∈ txs, tx.verify = .ok true))

theorem Pool.pushBack_of_verified {pool : Pool} {tx : Transaction} (h : tx.verify = .ok true) :
    pool.pushBack tx = .ok (pool ++ [tx]) := by
  rw [pushBack, h]; rfl

theorem Pool.pushBack_eq {pool pool' : Pool} {tx : Transaction} (h : pool.pushBack tx = .ok pool') :
    pool' = pool ++ [tx] := by
  rw [pushBack] at h
  cases hv : tx.verify with
  | error why => rw [hv] at h; cases h
  | ok valid =>
    rw [hv] at h
    cases valid with
    | false => cases h
    | true => exact (Except.ok.inj h).symm

theorem Pool.pushBatch_of_verified {pool : Pool} {txs : List Transaction} (h : AllVerified txs) :
    pool.pushBatch txs = .ok (pool ++ txs) := by
  induction txs generalizing pool with
  | nil => rw [pushBatch, List.append_nil]
  | cons tx txs ih =>
    have htx := h tx (List.mem_cons_self ..)
    rw [pushBatch, pushBack_of_verified htx]
    exact (ih fun t ht => h t (List.mem_cons_of_mem _ ht)).trans (by simp)

theorem Pool.remove_perm {search : Transaction → Bool} {pool rest : Pool} {tx : Transaction}
    (h : pool.remove search = some (tx, rest)) : List.Perm pool (tx :: rest) := by
  induction pool generalizing rest with
  | nil => cases h
  | cons t pool ih =>
    rw [remove] at h
    split at h
    · obtain ⟨rfl, rfl⟩ := Prod.mk.inj (Option.some.inj h)
      exact .refl _
    · cases hr : remove search pool with
      | none => rw [hr] at h; cases h
      | some found =>
        rw [hr] at h
        obtain ⟨rfl, rfl⟩ := Prod.mk.inj (Option.some.inj h)
        exact ((ih hr).cons t).trans (.swap ..)

/-- In a pool of distinct ids, removing by id leaves the others in order. -/
theorem Pool.remove_of_mem {pool : Pool} (hnodup : (pool.map Transaction.id).Nodup)
    {tx : Transaction} (htx : tx ∈ pool) :
    Pool.remove (fun t => t.id == tx.id) pool =
      some (tx, pool.filter fun t => decide (t.id ≠ tx.id)) := by
  induction pool with
  | nil => cases htx
  | cons t pool ih =>
    rw [List.map_cons, List.nodup_cons] at hnodup
    rcases List.mem_cons.mp htx with rfl | htx
    · have hrest : pool.filter (fun t => decide (t.id ≠ tx.id)) = pool := by
        refine List.filter_eq_self.mpr fun t ht => decide_eq_true fun he => hnodup.1 ?_
        exact List.mem_map.mpr ⟨t, ht, he⟩
      simp only [remove, beq_self_eq_true, ↓reduceIte]
      rw [List.filter_cons_of_neg (by simp), hrest]
    · have hne : t.id ≠ tx.id := fun he => hnodup.1 (he ▸ List.mem_map_of_mem htx)
      simp only [remove, beq_iff_eq, hne, ↓reduceIte, ih hnodup.2 htx]
      rw [List.filter_cons_of_pos (by simpa using hne)]

end SonicChain
