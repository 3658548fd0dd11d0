import SonicChain.Runtime

/-! # The balances module

`transfer` and the storage of balances, with what the declared access list and
the order of the steps give: `transfer` reports a refusal at once, fails
logically only before it writes, and keeps to the keys it declares.
-/

namespace SonicChain
open StoreProgram

/-- The balance of an account: what may be transferred out, and what is
reserved, potentially because it is in use in other modules. -/
structure AccountBalance where
  free : Balance
  reserved : Balance
  deriving DecidableEq, Repr

namespace AccountBalance

instance : Inhabited AccountBalance := ⟨⟨0, 0⟩⟩

instance : Codec AccountBalance where
  encode b := do return (← Codec.encode b.free) ++ (← Codec.encode b.reserved)
  decode := do return { free := ← Codec.decode, reserved := ← Codec.decode }

/-- The encoding is total. -/
theorem encode_eq (b : AccountBalance) :
    Codec.encode b = .ok (leBytes 16 b.free.toNat ++ leBytes 16 b.reserved.toNat) := rfl

instance : LawfulCodec AccountBalance where
  decode_encode := by
    intro b bytes h rest
    obtain rfl := Except.ok.inj ((encode_eq b).symm.trans h)
    have hfree := fun r => LawfulCodec.decode_encode (encode_u128 b.free) r
    have hreserved := fun r => LawfulCodec.decode_encode (encode_u128 b.reserved) r
    change StateT.run (do
      let free ← (Codec.decode : Decoder Balance)
      let reserved ← (Codec.decode : Decoder Balance)
      return AccountBalance.mk free reserved) _ = _
    simp [List.append_assoc, hfree, hreserved]

theorem panicsIn_decode {allowed : Panic → Prop} :
    Decoder.PanicsIn allowed (Codec.decode : Decoder AccountBalance) :=
  Decoder.PanicsIn.bind panicsIn_decode_u128 fun _ => .bind panicsIn_decode_u128 fun _ => .pure _

instance : ExpectingCodec AccountBalance where
  encode_panic := nofun
  decode_panic := panicsIn_decode

def canSpend (b : AccountBalance) (amount : Balance) : Bool := decide (amount.toNat ≤ b.free.toNat)

def reserve (b : AccountBalance) (amount : Balance) : Except Panic (Except String AccountBalance) :=
  if b.canSpend amount then do
    let free ← U128.subAssign "free" b.free amount
    let reserved ← U128.addAssign "reserved" b.reserved amount
    return .ok { free, reserved }
  else return .error "Not enough funds."

def unreserve (b : AccountBalance) (amount : Balance) :
    Except Panic (Except String AccountBalance) :=
  if amount.toNat ≤ b.reserved.toNat then do
    let reserved ← U128.subAssign "reserved" b.reserved amount
    let free ← U128.addAssign "free" b.free amount
    return .ok { free, reserved }
  else return .error "Not enough reserved."

end AccountBalance

/-- The balances of all accounts. -/
def balanceOf : StorageMap AccountBalance := { moduleName := "balances", storageName := "balance_of" }

variable [Ed25519]

namespace Balances

def transfer (origin dest : AccountId) (value : Balance) : Dispatch Unit := do
  -- If we fail at this step, it is fine. We have not written anything yet.
  let oldBalance ← orForward (balanceOf.read origin)
  match U128.checkedSub oldBalance.free value with
  | some remaining =>
    expect "Origin's balance key must be owned by the current thread."
      (balanceOf.write origin { oldBalance with free := remaining })
    orOrphan (balanceOf.mutate dest fun old => do
      return { old with free := ← U128.addAssign "free" old.free value })
  | none => throw (.logicError "Does not have enough funds.")

inductive Call where
  | transfer (dest : AccountId) (value : Balance)

namespace Call

def dispatch (origin : AccountId) : Call → Dispatch Unit
  | .transfer dest value => Balances.transfer origin dest value

/-- The access lists. -/
def validate (origin : AccountId) : Call → List Key
  | .transfer dest _ => [balanceOf.keyFor origin, balanceOf.keyFor dest]

def encode : Call → Except Panic (List UInt8)
  | .transfer dest value => do return 0 :: ((← Codec.encode dest) ++ (← Codec.encode value))

end Call

theorem failStop_transfer (origin dest : AccountId) (value : Balance) :
    FailStopCall (transfer origin dest value) := by
  refine FailStop.bind (failStop_orForward (balanceOf.failStop_read origin)) fun oldBalance => ?_
  split
  · refine FailStop.bind (failStop_expect _ (balanceOf.failStop_write origin _)) fun _ => ?_
    exact failStop_orOrphan (balanceOf.failStop_mutate dest _)
  · simp [FailStop, DispatchError.Reports]

/-- Refused nothing, a transfer panics only where a balance overflows. -/
theorem faultsIn_transfer (origin dest : AccountId) (value : Balance) :
    FaultsIn (· = .addOverflow "free") (transfer origin dest value).run := by
  have hnever : Decoder.PanicsIn (fun _ => False) (Codec.decode : Decoder AccountBalance) :=
    AccountBalance.panicsIn_decode
  have hdecode : ∀ encoded why,
      (StorageMap.decodeOrDefault encoded : Except Panic AccountBalance) ≠ .error why := fun _ _ =>
    StorageMap.panicsIn_decodeOrDefault hnever
  have hencode : ∀ (b : AccountBalance) why, Codec.encode b ≠ .error why := fun _ _ => nofun
  refine FaultsIn.bindT (faultsIn_adapt (balanceOf.faultsIn_read origin fun _ _ h =>
    absurd h (hdecode _ _))) fun oldBalance => ?_
  split
  · refine FaultsIn.bindT (faultsIn_expect _ (balanceOf.failStop_write origin _)
      (balanceOf.faultsIn_write origin (fun _ _ h => absurd h (hencode _ _)) _)) fun _ => ?_
    refine faultsIn_adapt (balanceOf.faultsIn_mutate dest (fun _ _ h => absurd h (hdecode _ _))
      (fun _ _ h => absurd h (hencode _ _)) fun old why h => ?_)
    cases hadd : U128.addAssign "free" old.free value with
    | error p =>
      rw [hadd] at h
      cases h
      exact U128.of_addAssign_error hadd
    | ok free => rw [hadd] at h; cases h
  · trivial

theorem checksFirst_transfer (origin dest : AccountId) (value : Balance) :
    ChecksFirst DispatchError.IsLogic (transfer origin dest value).run := by
  refine ChecksFirst.bind_readOnly (readOnly_adapt (balanceOf.readOnly_read origin))
    fun oldBalance => ?_
  split
  · exact (Never.bind (never_expect _) fun _ => never_orOrphan).checksFirst
  · trivial

theorem within_transfer (origin dest : AccountId) (value : Balance) :
    Within (· ∈ Call.validate origin (.transfer dest value)) (transfer origin dest value).run := by
  have horigin : balanceOf.keyFor origin ∈ Call.validate origin (.transfer dest value) := by
    simp [Call.validate]
  have hdest : balanceOf.keyFor dest ∈ Call.validate origin (.transfer dest value) := by
    simp [Call.validate]
  refine Within.bindT (within_adapt (balanceOf.within_read origin horigin)) fun oldBalance => ?_
  split
  · refine Within.bindT (within_expect _ (balanceOf.within_write origin _ horigin)) fun _ => ?_
    exact within_adapt (balanceOf.within_mutate dest _ hdest)
  · trivial

end Balances
end SonicChain
