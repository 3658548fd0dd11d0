import SonicChain.Assignment
import SonicChain.Collection

/-! # What is asked of a distributer

A distributer tags each transaction of the pool with a worker that it is given, and
then `concurrent_phase` sends it there.  `RoundRobin` does this for each pool,
`ConnectedComponents` for those that are not empty (`honours_contract_iff`).
-/

namespace SonicChain

section
variable [Ed25519]

/-- Tag the transactions in turn, `pool` from position `idx` on. -/
def RoundRobin.tagFrom (workerIds : List ThreadId) : Nat → Pool → Except Panic Pool
  | _, [] => .ok []
  | idx, tx :: pool =>
    if workerIds.length = 0 then
      .error (.message "attempt to calculate the remainder with a divisor of zero")
    else
      match workerIds[idx % workerIds.length]? with
      | some assignedWorker => do
        return { tx with tag := .done assignedWorker } :: (← tagFrom workerIds (idx + 1) pool)
      | none => .error (.message "index out of bounds")

/-- `RoundRobin::distribute`. -/
def RoundRobin.distribute : Distributer := fun workerIds pool => tagFrom workerIds 0 pool

/-- The distributers there are. -/
inductive DistributerKind where
  | roundRobin
  | connectedComponents
  deriving DecidableEq

/-- `Distributer::distribute`, with fuel for the loops that may run on. -/
def DistributerKind.distribute (fuel : Nat) (workerIds : List ThreadId) (txs : Pool) :
    DistributerKind → Option (Except Panic Pool)
  | .roundRobin => some (RoundRobin.distribute workerIds txs)
  | .connectedComponents =>
    match SonicChain.distribute fuel workerIds txs .empty with
    | some (.ok (pool, _)) => some (.ok pool)
    | some (.error why) => some (.error why)
    | none => none

/-- **The contract**: the distributer returns, each transaction is tagged with one of
the workers, nothing else has changed, and then `concurrent_phase` does not panic. -/
def DistributerKind.Honours (D : DistributerKind) (workerIds : List ThreadId) (txs : Pool) : Prop :=
  ∃ pool,
    (∃ enough, ∀ fuel ≥ enough, D.distribute fuel workerIds txs = some (.ok pool)) ∧
    List.Forall₂ (fun tx t => ∃ w ∈ workerIds, t = { tx with tag := .done w }) txs pool ∧
    ∀ why, Master.Effect.panic why ∉ Master.distributeEffects workerIds pool

variable {workerIds : List ThreadId} {txs pool : Pool}

/-- Where each transaction has been given to a worker, each is sent. -/
theorem not_panic_of_designated (hpool : ∀ tx ∈ pool, ∃ w ∈ workerIds, tx.tag = .done w)
    (why : Panic) : Master.Effect.panic why ∉ Master.distributeEffects workerIds pool := by
  intro h
  rcases distributeEffects_sends hpool _ h with ⟨w, hw⟩ | ⟨w, payload, hw⟩
  · cases hw
  · cases hw

theorem designated_of_forall₂
    (h : List.Forall₂ (fun tx t => ∃ w ∈ workerIds, t = { tx with tag := .done w }) txs pool) :
    ∀ tx ∈ pool, ∃ w ∈ workerIds, tx.tag = .done w := by
  induction h with
  | nil => exact fun tx htx => absurd htx List.not_mem_nil
  | cons hw _ ih =>
    intro tx htx
    rcases List.mem_cons.mp htx with rfl | htx
    · obtain ⟨w, hw, rfl⟩ := hw
      exact ⟨w, hw, rfl⟩
    · exact ih tx htx

theorem DistributerKind.honours_of_forall₂ {D : DistributerKind}
    (hruns : ∃ enough, ∀ fuel ≥ enough, D.distribute fuel workerIds txs = some (.ok pool))
    (h : List.Forall₂ (fun tx t => ∃ w ∈ workerIds, t = { tx with tag := .done w }) txs pool) :
    D.Honours workerIds txs :=
  ⟨pool, hruns, h, not_panic_of_designated (designated_of_forall₂ h)⟩

theorem RoundRobin.tagFrom_ok (hworkers : workerIds ≠ []) (idx : Nat) (txs : Pool) :
    ∃ pool, tagFrom workerIds idx txs = .ok pool ∧
      List.Forall₂ (fun tx t => ∃ w ∈ workerIds, t = { tx with tag := .done w }) txs pool := by
  induction txs generalizing idx with
  | nil => exact ⟨[], rfl, .nil⟩
  | cons tx txs ih =>
    have hlength : workerIds.length ≠ 0 := fun h => hworkers (List.length_eq_zero_iff.mp h)
    have hlt : idx % workerIds.length < workerIds.length := Nat.mod_lt _ (by omega)
    obtain ⟨pool, hrest, htagged⟩ := ih (idx + 1)
    refine ⟨{ tx with tag := .done workerIds[idx % workerIds.length] } :: pool, ?_,
      .cons ⟨_, List.getElem_mem hlt, rfl⟩ htagged⟩
    rw [tagFrom, if_neg hlength, List.getElem?_eq_getElem hlt]
    simp only [hrest]
    rfl

omit [Ed25519] in
theorem forall₂_mapIdx {A B : Type} {related : A → B → Prop} {l : List A} {f : Nat → A → B}
    (h : ∀ i a, related a (f i a)) : List.Forall₂ related l (l.mapIdx f) := by
  induction l generalizing f with
  | nil => exact .nil
  | cons a l ih =>
    rw [List.mapIdx_cons]
    exact .cons (h 0 a) (ih fun i a => h (i + 1) a)

/-- There is no largest component of none. -/
theorem distribute_nil (fuel : Nat) (workerIds : List ThreadId) :
    distribute (fuel + 1) workerIds [] .empty = some (.error .unwrap) := rfl

/-- **Both distributers honour the contract, but `ConnectedComponents` on the empty
pool.** -/
theorem honours_contract_iff (D : DistributerKind) (workerIds : List ThreadId) (txs : Pool)
    (hworkers : workerIds ≠ []) (hids : (txs.map Transaction.id).Nodup) :
    D.Honours workerIds txs ↔ (D = .connectedComponents → txs ≠ []) := by
  cases D with
  | roundRobin =>
    refine iff_of_true ?_ fun h => by cases h
    obtain ⟨pool, hok, htagged⟩ := RoundRobin.tagFrom_ok hworkers 0 txs
    exact DistributerKind.honours_of_forall₂ ⟨0, fun fuel _ => congrArg some hok⟩ htagged
  | connectedComponents =>
    constructor
    · rintro ⟨pool, ⟨enough, hruns⟩, -⟩ - rfl
      have hruns := hruns (enough + 1) (by omega)
      rw [DistributerKind.distribute, distribute_nil] at hruns
      cases hruns
    · intro hne
      obtain ⟨worker, enough, hmem, -, hruns⟩ :=
        distribute_returns workerIds txs hworkers (hne rfl) hids
      have htagged : List.Forall₂ (fun tx t => ∃ w ∈ workerIds, t = { tx with tag := .done w }) txs
          (txs.mapIdx fun i t => { t with tag := .done (worker i) }) :=
        forall₂_mapIdx fun i tx => ⟨worker i, hmem i, rfl⟩
      refine DistributerKind.honours_of_forall₂ ⟨enough, fun fuel hfuel => ?_⟩ htagged
      obtain ⟨heap, hdistribute⟩ := hruns fuel hfuel
      rw [DistributerKind.distribute, show distribute fuel workerIds txs .empty = _ from hdistribute]

end

section
open Testing

theorem honours_contract_payments : DistributerKind.connectedComponents.Honours [3, 1] payments :=
  (honours_contract_iff .connectedComponents [3, 1] payments (List.cons_ne_nil _ _)
    (by decide)).mpr fun _ => List.cons_ne_nil _ _

/-- With nothing to distribute, the largest component is unwrapped. -/
theorem not_honoured_on_empty : ¬ ∀ (D : DistributerKind) (workerIds : List ThreadId) (txs : Pool),
    workerIds ≠ [] → workerIds.Nodup → (txs.map Transaction.id).Nodup → D.Honours workerIds txs := by
  intro h
  obtain ⟨pool, ⟨enough, hruns⟩, -⟩ :=
    h .connectedComponents [1] [] (List.cons_ne_nil _ _) (by decide) List.nodup_nil
  have hruns := hruns (enough + 1) (by omega)
  rw [DistributerKind.distribute, distribute_nil] at hruns
  cases hruns

end
end SonicChain
