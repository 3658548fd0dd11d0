import SonicChain.Balances

/-! # The staking module

The seven staking calls over the ledgers of stash accounts, the bonds from
controllers to stashes, and the nominations.  A stash bonds part of its balance, which
is reserved, and names a controller; the controller then acts for the stash as a
validator or a nominator.  That there is a ledger is told from the default value alone:
an entry that is absent, one that cannot be decoded and one that holds the default
ledger are the same to every call.

Three disciplines hold of all the calls, and the runtimes rest on them.  A call stops
and reports as soon as it is refused a key (`failStop_dispatch`); it fails logically
only before it writes (`checksFirst_dispatch`); and where its access list is complete
it touches the keys of the list only (`within_dispatch`), which is so of the three
calls that move money (`Call.AccessComplete`).
-/

namespace SonicChain
open StoreProgram

/-- A staker's role in the staking system. -/
inductive StakingRole where
  | validator
  | nominator
  | chilled
  deriving DecidableEq, Repr

namespace StakingRole

instance : Inhabited StakingRole := ⟨.chilled⟩

instance : Codec StakingRole where
  encode role := .ok [match role with | .validator => 0 | .nominator => 1 | .chilled => 2]
  decode := do
    match ← Decoder.readByte with
    | 0 => return .validator
    | 1 => return .nominator
    | 2 => return .chilled
    | _ => Decoder.fail "No such variant in enum StakingRole"

theorem panicsIn_decode {allowed : Panic → Prop} :
    Decoder.PanicsIn allowed (Codec.decode : Decoder StakingRole) := by
  refine Decoder.PanicsIn.bind Decoder.panicsIn_readByte fun byte => ?_
  split
  exacts [.pure _, .pure _, .pure _, .fail _]

instance : ExpectingCodec StakingRole where
  encode_panic := nofun
  decode_panic := panicsIn_decode

instance : LawfulCodec StakingRole where
  decode_encode := by
    intro role bytes h rest
    obtain rfl := Except.ok.inj h
    cases role <;> rfl

end StakingRole

variable [Ed25519]

/-- The ledger of a staker.  The default one, with no value and the default controller,
stands for a staker that is not bonded, and no call can tell the two apart. -/
structure StakingLedger where
  value : Balance
  controller : AccountId
  role : StakingRole
  deriving DecidableEq

namespace StakingLedger

instance : Inhabited StakingLedger := ⟨⟨0, default, default⟩⟩

instance : Codec StakingLedger where
  encode l := do
    return (← Codec.encode l.value) ++ (← Codec.encode l.controller) ++ (← Codec.encode l.role)
  decode := do
    return { value := ← Codec.decode, controller := ← Codec.decode, role := ← Codec.decode }

/-- The encoding is total. -/
theorem encode_eq (l : StakingLedger) : ∃ bytes, Codec.encode l = .ok bytes := ⟨_, rfl⟩

instance : ExpectingCodec StakingLedger where
  encode_panic := nofun
  decode_panic := Decoder.PanicsIn.bind ExpectingCodec.decode_panic fun _ =>
    .bind ExpectingCodec.decode_panic fun _ =>
      .bind ExpectingCodec.decode_panic fun _ => .pure _

instance : LawfulCodec StakingLedger where
  decode_encode := by
    intro l bytes h rest
    obtain ⟨role, hrole⟩ : ∃ role, Codec.encode l.role = .ok role := ⟨_, rfl⟩
    have hbytes : Codec.encode l = .ok (leBytes 16 l.value.toNat ++ l.controller.bytes ++ role) := by
      change (do return (← Codec.encode l.value) ++ (← Codec.encode l.controller) ++
        (← Codec.encode l.role)) = _
      rw [hrole]
      rfl
    obtain rfl := Except.ok.inj (hbytes.symm.trans h)
    have hvalue := fun r => LawfulCodec.decode_encode (encode_u128 l.value) r
    have hcontroller := fun r => LawfulCodec.decode_encode (Public.encode_eq l.controller) r
    have hrole := fun r => LawfulCodec.decode_encode hrole r
    change StateT.run (do
      let value ← (Codec.decode : Decoder Balance)
      let controller ← (Codec.decode : Decoder AccountId)
      let role ← (Codec.decode : Decoder StakingRole)
      return StakingLedger.mk value controller role) _ = _
    simp [List.append_assoc, hvalue, hcontroller, hrole]

end StakingLedger

/-- From stash accounts to ledgers.  `value` of a ledger is the part of the stash's
balance that is reserved for it. -/
def ledgerOf : StorageMap StakingLedger := { moduleName := "staking", storageName := "ledger_of" }

/-- From controller accounts to stashes: the other direction of `controller` in a
ledger.  It holds the default account where nothing is bonded. -/
def bonded : StorageMap AccountId := { moduleName := "staking", storageName := "bonded" }

/-- From stashes to nominations. -/
def nominations : StorageMap (List AccountId) :=
  { moduleName := "staking", storageName := "nominations" }

namespace Staking

def txBond (stash : AccountId) (amount : Balance) (controller : AccountId) : Dispatch Unit := do
  -- check already bonded.
  if ← orForward (ledgerOf.exists stash) then
    throw (.logicError "Already bonded.")
  -- check enough balance and write balance.
  let stashBalance ← orOrphan (balanceOf.read stash)
  let stashBalance ← orLogicError (stashBalance.reserve amount)
  expect "Must be owned." (balanceOf.write stash stashBalance)
  -- write bonded
  orOrphan (bonded.write controller stash)
  -- write ledger.
  let ledger : StakingLedger := { (default : StakingLedger) with controller, value := amount }
  expect "Must be owned." (ledgerOf.write stash ledger)

def txBondExtra (stash : AccountId) (amount : Balance) : Dispatch Unit := do
  let ledger ← orForward (ledgerOf.read stash)
  if ledger = default then
    throw (.logicError "Not bonded.")
  -- note the second argument, first read can fail, second will cause orphan.
  let balance ← orOrphan (balanceOf.read stash)
  let balance ← orLogicError (balance.reserve amount)
  expect "Must be owned." (balanceOf.write stash balance)
  let value ← orPanic (U128.addAssign "value" ledger.value amount)
  expect "Must be owned." (ledgerOf.write stash { ledger with value })

def txUnbond (stash : AccountId) (amount : Balance) : Dispatch Unit := do
  let ledger ← orForward (ledgerOf.read stash)
  if ledger = default then
    throw (.logicError "Not bonded.")
  if ledger.value.toNat < amount.toNat then
    throw (.logicError "Too much unbonding.")
  let value ← orPanic (match U128.checkedSub ledger.value amount with
    | some value => .ok value
    | none => .error (.expect "Must have enough bonded."))
  -- update the ledger.
  expect "Must be owned." (ledgerOf.write stash { ledger with value })
  -- update the balance.
  orOrphan (balanceOf.mutate stash fun old => do
    match ← old.unreserve amount with
    | .ok new => return new
    | .error _ => .error (.expect "Must have enough reserved"))

def txSetController (stash ctrl : AccountId) : Dispatch Unit := do
  let ledger ← orForward (ledgerOf.read stash)
  if ledger = default then
    throw (.logicError "Not bonded.")
  let prevCtrl := ledger.controller
  if prevCtrl = ctrl then
    return ()
  -- remove previous binding.
  orForward (bonded.clear prevCtrl)
  -- insert new bonding.
  orOrphan (bonded.write ctrl stash)
  -- update ledger.
  expect "Must be owned." (ledgerOf.write stash { ledger with controller := ctrl })

/-- What `tx_validate`, `tx_nominate` and `tx_chill` begin with: the stash that
the controller is bonded to, and its ledger. -/
def bondedLedger (ctrl : AccountId) : Dispatch (AccountId × StakingLedger) := do
  let stash ← orForward (bonded.read ctrl)
  if stash = default then
    throw (.logicError "Not bonded.")
  let ledger ← orOrphan (ledgerOf.read stash)
  if ledger = default then
    orPanic (.error (.message "Ledger must exist when Bonded exists."))
  return (stash, ledger)

def txValidate (ctrl : AccountId) : Dispatch Unit := do
  let (stash, ledger) ← bondedLedger ctrl
  -- update ledger.
  expect "Must be owned." (ledgerOf.write stash { ledger with role := .validator })

def txNominate (ctrl : AccountId) (targets : List AccountId) : Dispatch Unit := do
  let (stash, ledger) ← bondedLedger ctrl
  -- write targets.
  orOrphan (nominations.write stash targets)
  -- update ledger.
  expect "Must be owned." (ledgerOf.write stash { ledger with role := .nominator })

def txChill (ctrl : AccountId) : Dispatch Unit := do
  let (stash, ledger) ← bondedLedger ctrl
  -- clear potentially the nominations.
  if ledger.role = .nominator then
    orOrphan (nominations.clear stash)
  -- update ledger.
  expect "Must be owned." (ledgerOf.write stash { ledger with role := .chilled })

inductive Call where
  | txBond (amount : Balance) (controller : AccountId)
  | txBondExtra (amount : Balance)
  | txUnbond (amount : Balance)
  | txSetController (ctrl : AccountId)
  | txValidate
  | txNominate (targets : List AccountId)
  | txChill

namespace Call

def dispatch (origin : AccountId) : Call → Dispatch Unit
  | .txBond amount controller => Staking.txBond origin amount controller
  | .txBondExtra amount => Staking.txBondExtra origin amount
  | .txUnbond amount => Staking.txUnbond origin amount
  | .txSetController ctrl => Staking.txSetController origin ctrl
  | .txValidate => Staking.txValidate origin
  | .txNominate targets => Staking.txNominate origin targets
  | .txChill => Staking.txChill origin

/-- The access lists: the keys that the distributers take a call to touch.  The list of
`tx_set_controller` leaves out the bond of the previous controller, and the last three
leave out the ledger and the nominations of the stash, none of which the arguments
determine. -/
def validate (origin : AccountId) : Call → List Key
  | .txBond _ controller =>
    [balanceOf.keyFor origin, ledgerOf.keyFor origin, bonded.keyFor controller]
  | .txBondExtra _ => [balanceOf.keyFor origin, ledgerOf.keyFor origin]
  | .txUnbond _ => [balanceOf.keyFor origin, ledgerOf.keyFor origin]
  | .txSetController ctrl => [ledgerOf.keyFor origin, bonded.keyFor ctrl]
  | .txValidate => [bonded.keyFor origin]
  | .txNominate _ => [bonded.keyFor origin]
  | .txChill => [bonded.keyFor origin]

def encode : Call → Except Panic (List UInt8)
  | .txBond amount controller => do
    return 0 :: ((← Codec.encode amount) ++ (← Codec.encode controller))
  | .txBondExtra amount => do return 1 :: (← Codec.encode amount)
  | .txUnbond amount => do return 2 :: (← Codec.encode amount)
  | .txSetController ctrl => do return 3 :: (← Codec.encode ctrl)
  | .txValidate => return [4]
  | .txNominate targets => do return 5 :: (← Codec.encode targets)
  | .txChill => return [6]

end Call

/-! ## Disciplines of the calls

Each by cases on the call, following its program down; `bondedLedger` has its own
lemmas, for it begins three of them.
-/

theorem failStop_bondedLedger (ctrl : AccountId) : FailStopCall (bondedLedger ctrl) := by
  refine FailStop.bind (failStop_orForward (bonded.failStop_read ctrl)) fun stash => ?_
  by_cases hstash : stash = default
  · simp only [hstash, ↓reduceIte]; exact failStop_throw
  simp only [hstash, ↓reduceIte]
  refine FailStop.bind (failStop_orOrphan (ledgerOf.failStop_read stash)) fun ledger => ?_
  by_cases hledger : ledger = default
  · simp only [hledger, ↓reduceIte]; trivial
  · simp only [hledger, ↓reduceIte]; trivial

theorem readOnly_bondedLedger (ctrl : AccountId) : ReadOnly (bondedLedger ctrl).run := by
  refine ReadOnly.bindT (readOnly_adapt (bonded.readOnly_read ctrl)) fun stash => ?_
  by_cases hstash : stash = default
  · simp only [hstash, ↓reduceIte]; trivial
  simp only [hstash, ↓reduceIte]
  refine ReadOnly.bindT (readOnly_adapt (ledgerOf.readOnly_read stash)) fun ledger => ?_
  by_cases hledger : ledger = default
  · simp only [hledger, ↓reduceIte]; trivial
  · simp only [hledger, ↓reduceIte]; trivial

/-- **A call that is refused a key stops there**, and reports it. -/
theorem failStop_dispatch (origin : AccountId) (call : Call) :
    FailStopCall (call.dispatch origin) := by
  cases call with
  | txBond amount controller =>
    refine FailStop.bind (failStop_orForward (ledgerOf.failStop_exists origin)) fun b => ?_
    cases b with
    | true => exact failStop_throw
    | false =>
      refine FailStop.bind (failStop_orOrphan (balanceOf.failStop_read origin)) fun _ => ?_
      refine FailStop.bind (failStop_orLogicError _) fun _ => ?_
      refine FailStop.bind (failStop_expect _ (balanceOf.failStop_write origin _)) fun _ => ?_
      refine FailStop.bind (failStop_orOrphan (bonded.failStop_write controller _)) fun _ => ?_
      exact failStop_expect _ (ledgerOf.failStop_write origin _)
  | txBondExtra amount =>
    refine FailStop.bind (failStop_orForward (ledgerOf.failStop_read origin)) fun ledger => ?_
    by_cases hledger : ledger = default
    · simp only [hledger, ↓reduceIte]; exact failStop_throw
    simp only [hledger, ↓reduceIte]
    refine FailStop.bind (failStop_orOrphan (balanceOf.failStop_read origin)) fun _ => ?_
    refine FailStop.bind (failStop_orLogicError _) fun _ => ?_
    refine FailStop.bind (failStop_expect _ (balanceOf.failStop_write origin _)) fun _ => ?_
    refine FailStop.bind (failStop_orPanic _) fun _ => ?_
    exact failStop_expect _ (ledgerOf.failStop_write origin _)
  | txUnbond amount =>
    refine FailStop.bind (failStop_orForward (ledgerOf.failStop_read origin)) fun ledger => ?_
    by_cases hledger : ledger = default
    · simp only [hledger, ↓reduceIte]; exact failStop_throw
    by_cases hvalue : ledger.value.toNat < amount.toNat
    · simp only [hledger, hvalue, ↓reduceIte]; exact failStop_throw
    simp only [hledger, hvalue, ↓reduceIte]
    refine FailStop.bind (failStop_orPanic _) fun _ => ?_
    refine FailStop.bind (failStop_expect _ (ledgerOf.failStop_write origin _)) fun _ => ?_
    exact failStop_orOrphan (balanceOf.failStop_mutate origin _)
  | txSetController ctrl =>
    refine FailStop.bind (failStop_orForward (ledgerOf.failStop_read origin)) fun ledger => ?_
    by_cases hledger : ledger = default
    · simp only [hledger, ↓reduceIte]; exact failStop_throw
    by_cases hctrl : ledger.controller = ctrl
    · simp only [hledger, hctrl, ↓reduceIte]; trivial
    simp only [hledger, hctrl, ↓reduceIte]
    refine FailStop.bind (failStop_orForward (bonded.failStop_write _ _)) fun _ => ?_
    refine FailStop.bind (failStop_orOrphan (bonded.failStop_write ctrl _)) fun _ => ?_
    exact failStop_expect _ (ledgerOf.failStop_write origin _)
  | txValidate =>
    exact FailStop.bind (failStop_bondedLedger origin) fun (stash, _) =>
      failStop_expect _ (ledgerOf.failStop_write stash _)
  | txNominate targets =>
    exact FailStop.bind (failStop_bondedLedger origin) fun (stash, _) =>
      FailStop.bind (failStop_orOrphan (nominations.failStop_write stash _)) fun _ =>
        failStop_expect _ (ledgerOf.failStop_write stash _)
  | txChill =>
    refine FailStop.bind (failStop_bondedLedger origin) fun (stash, ledger) => ?_
    by_cases hrole : ledger.role = .nominator
    · simp only [hrole, ↓reduceIte]
      exact FailStop.bind (failStop_orOrphan (nominations.failStop_write stash _)) fun _ =>
        failStop_expect _ (ledgerOf.failStop_write stash _)
    · simp only [hrole, ↓reduceIte]
      exact failStop_expect _ (ledgerOf.failStop_write stash _)

/-- **A call fails logically only before it writes**: so a dispatch that returns
a logic error has written nothing, and there is nothing to roll back. -/
theorem checksFirst_dispatch (origin : AccountId) (call : Call) :
    ChecksFirst DispatchError.IsLogic (call.dispatch origin).run := by
  cases call with
  | txBond amount controller =>
    refine ChecksFirst.bind_readOnly (readOnly_adapt (ledgerOf.readOnly_exists origin)) fun b => ?_
    cases b with
    | true => trivial
    | false =>
      refine ChecksFirst.bind_readOnly (readOnly_adapt (balanceOf.readOnly_read origin)) fun _ => ?_
      refine ChecksFirst.bind_readOnly (readOnly_orLogicError _) fun _ => ?_
      exact (Never.bind (never_expect _) fun _ => Never.bind never_orOrphan fun _ =>
        never_expect _).checksFirst
  | txBondExtra amount =>
    refine ChecksFirst.bind_readOnly (readOnly_adapt (ledgerOf.readOnly_read origin))
      fun ledger => ?_
    by_cases hledger : ledger = default
    · simp only [hledger, ↓reduceIte]; trivial
    simp only [hledger, ↓reduceIte]
    refine ChecksFirst.bind_readOnly (readOnly_adapt (balanceOf.readOnly_read origin)) fun _ => ?_
    refine ChecksFirst.bind_readOnly (readOnly_orLogicError _) fun _ => ?_
    exact (Never.bind (never_expect _) fun _ => Never.bind (never_orPanic _) fun _ =>
      never_expect _).checksFirst
  | txUnbond amount =>
    refine ChecksFirst.bind_readOnly (readOnly_adapt (ledgerOf.readOnly_read origin))
      fun ledger => ?_
    by_cases hledger : ledger = default
    · simp only [hledger, ↓reduceIte]; trivial
    by_cases hvalue : ledger.value.toNat < amount.toNat
    · simp only [hledger, hvalue, ↓reduceIte]; trivial
    simp only [hledger, hvalue, ↓reduceIte]
    exact (Never.bind (never_orPanic _) fun _ => Never.bind (never_expect _) fun _ =>
      never_orOrphan).checksFirst
  | txSetController ctrl =>
    refine ChecksFirst.bind_readOnly (readOnly_adapt (ledgerOf.readOnly_read origin))
      fun ledger => ?_
    by_cases hledger : ledger = default
    · simp only [hledger, ↓reduceIte]; trivial
    by_cases hctrl : ledger.controller = ctrl
    · simp only [hledger, hctrl, ↓reduceIte]; trivial
    simp only [hledger, hctrl, ↓reduceIte]
    exact (Never.bind never_orForward fun _ => Never.bind never_orOrphan fun _ =>
      never_expect _).checksFirst
  | txValidate =>
    exact ChecksFirst.bind_readOnly (readOnly_bondedLedger origin) fun _ =>
      (never_expect _).checksFirst
  | txNominate targets =>
    exact ChecksFirst.bind_readOnly (readOnly_bondedLedger origin) fun _ =>
      (Never.bind never_orOrphan fun _ => never_expect _).checksFirst
  | txChill =>
    refine ChecksFirst.bind_readOnly (readOnly_bondedLedger origin) fun (stash, ledger) => ?_
    by_cases hrole : ledger.role = .nominator
    · simp only [hrole, ↓reduceIte]
      exact (Never.bind never_orOrphan fun _ => never_expect _).checksFirst
    · simp only [hrole, ↓reduceIte]
      exact (never_expect _).checksFirst

/-- The calls whose access lists are complete: the others reach keys that their
arguments do not determine. -/
def Call.AccessComplete : Call → Prop
  | .txBond .. => True
  | .txBondExtra _ => True
  | .txUnbond _ => True
  | _ => False

/-- **A complete access list covers every access**, refused or not. -/
theorem within_dispatch (origin : AccountId) {call : Call} (hcall : call.AccessComplete) :
    Within (· ∈ call.validate origin) (call.dispatch origin).run := by
  cases call with
  | txBond amount controller =>
    have hbalance : balanceOf.keyFor origin ∈ (Call.txBond amount controller).validate origin := by
      simp [Call.validate]
    have hledger : ledgerOf.keyFor origin ∈ (Call.txBond amount controller).validate origin := by
      simp [Call.validate]
    have hbonded : bonded.keyFor controller ∈ (Call.txBond amount controller).validate origin := by
      simp [Call.validate]
    refine Within.bindT (within_adapt (ledgerOf.within_exists origin hledger)) fun b => ?_
    cases b with
    | true => trivial
    | false =>
      refine Within.bindT (within_adapt (balanceOf.within_read origin hbalance)) fun _ => ?_
      refine Within.bindT (within_orLogicError _) fun _ => ?_
      refine Within.bindT (within_expect _ (balanceOf.within_write origin _ hbalance)) fun _ => ?_
      refine Within.bindT (within_adapt (bonded.within_write controller _ hbonded)) fun _ => ?_
      exact within_expect _ (ledgerOf.within_write origin _ hledger)
  | txBondExtra amount =>
    have hbalance : balanceOf.keyFor origin ∈ (Call.txBondExtra amount).validate origin := by
      simp [Call.validate]
    have hledger : ledgerOf.keyFor origin ∈ (Call.txBondExtra amount).validate origin := by
      simp [Call.validate]
    refine Within.bindT (within_adapt (ledgerOf.within_read origin hledger)) fun ledger => ?_
    by_cases hdefault : ledger = default
    · simp only [hdefault, ↓reduceIte]; trivial
    simp only [hdefault, ↓reduceIte]
    refine Within.bindT (within_adapt (balanceOf.within_read origin hbalance)) fun _ => ?_
    refine Within.bindT (within_orLogicError _) fun _ => ?_
    refine Within.bindT (within_expect _ (balanceOf.within_write origin _ hbalance)) fun _ => ?_
    refine Within.bindT (within_orPanic _) fun _ => ?_
    exact within_expect _ (ledgerOf.within_write origin _ hledger)
  | txUnbond amount =>
    have hbalance : balanceOf.keyFor origin ∈ (Call.txUnbond amount).validate origin := by
      simp [Call.validate]
    have hledger : ledgerOf.keyFor origin ∈ (Call.txUnbond amount).validate origin := by
      simp [Call.validate]
    refine Within.bindT (within_adapt (ledgerOf.within_read origin hledger)) fun ledger => ?_
    by_cases hdefault : ledger = default
    · simp only [hdefault, ↓reduceIte]; trivial
    by_cases hvalue : ledger.value.toNat < amount.toNat
    · simp only [hdefault, hvalue, ↓reduceIte]; trivial
    simp only [hdefault, hvalue, ↓reduceIte]
    refine Within.bindT (within_orPanic _) fun _ => ?_
    refine Within.bindT (within_expect _ (ledgerOf.within_write origin _ hledger)) fun _ => ?_
    exact within_adapt (balanceOf.within_mutate origin _ hbalance)
  | _ => exact hcall.elim

end Staking
end SonicChain
