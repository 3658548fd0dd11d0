import SonicChain.DispatchEffects
import SonicChain.Money
import SonicChain.Refusals

/-! # What the calls do to the accounts

The calls are programs over keys and bytes.  What they mean to the accounts is said
here once, and everything that is proved about money, bonds, controllers and
nominations rests on it.

* `Accounts` are the four storage maps of a state, seen as typed maps from accounts.
  Reading an entry with malformed bytes gives the default value, or panics where the
  bytes break off inside a public key; so the ledgers and the bonds are maps to a
  value or a panic.
* `Effect` is what a call makes of the accounts when it succeeds: one constructor for
  each way in which a call may succeed, with what it has checked on the way.
* `Faults` are the ways in which a call may panic, each with what it has found.

A call that returns `Ok` has its effect (`OuterCall.effect_of_run`), one that panics has
one of its faults (`OuterCall.faults_of_run`), and one that returns an error has changed
nothing.  A dispatch through either runtime, in a state with any taints, is one of the
three (`AnyDispatch.of_apply`, `AnyDispatch.faults`).  An invariant of the accounts is
then a matter of the constructors of `Effect`, and holds over any sequence of dispatches,
through any threads, by `AnyDispatch.applyAll_invariant`.
-/

namespace SonicChain
open StoreProgram
variable [Ed25519]

/-- The storage maps.  Reading the entry of an account panics where its bytes are
malformed in a certain way. -/
@[ext] structure Accounts where
  balances : AccountId → AccountBalance
  ledgers : AccountId → Except Panic StakingLedger
  bonds : AccountId → Except Panic AccountId
  nominees : AccountId → Except Panic (List AccountId)

namespace Accounts

/-- The maps as the data has them. -/
def of (d : Data) : Accounts :=
  ⟨balance d, ledgerOf.get d, bonded.get d, nominations.get d⟩

def setBalance (s : Accounts) (a : AccountId) (b : AccountBalance) : Accounts :=
  { s with balances := Function.update s.balances a b }

def setLedger (s : Accounts) (a : AccountId) (l : StakingLedger) : Accounts :=
  { s with ledgers := Function.update s.ledgers a (.ok l) }

def setBonded (s : Accounts) (a stash : AccountId) : Accounts :=
  { s with bonds := Function.update s.bonds a (.ok stash) }

def setNominations (s : Accounts) (a : AccountId) (targets : List AccountId) : Accounts :=
  { s with nominees := Function.update s.nominees a (.ok targets) }

section
variable (s : Accounts) (a stash : AccountId) (b : AccountBalance) (l : StakingLedger)
  (targets : List AccountId)

@[simp] theorem balances_setBalance :
    (s.setBalance a b).balances = Function.update s.balances a b := rfl
@[simp] theorem ledgers_setBalance : (s.setBalance a b).ledgers = s.ledgers := rfl
@[simp] theorem bonds_setBalance : (s.setBalance a b).bonds = s.bonds := rfl
@[simp] theorem nominees_setBalance : (s.setBalance a b).nominees = s.nominees := rfl

@[simp] theorem balances_setLedger : (s.setLedger a l).balances = s.balances := rfl
@[simp] theorem ledgers_setLedger :
    (s.setLedger a l).ledgers = Function.update s.ledgers a (.ok l) := rfl
@[simp] theorem bonds_setLedger : (s.setLedger a l).bonds = s.bonds := rfl
@[simp] theorem nominees_setLedger : (s.setLedger a l).nominees = s.nominees := rfl

@[simp] theorem balances_setBonded : (s.setBonded a stash).balances = s.balances := rfl
@[simp] theorem ledgers_setBonded : (s.setBonded a stash).ledgers = s.ledgers := rfl
@[simp] theorem bonds_setBonded :
    (s.setBonded a stash).bonds = Function.update s.bonds a (.ok stash) := rfl
@[simp] theorem nominees_setBonded : (s.setBonded a stash).nominees = s.nominees := rfl

@[simp] theorem balances_setNominations :
    (s.setNominations a targets).balances = s.balances := rfl
@[simp] theorem ledgers_setNominations : (s.setNominations a targets).ledgers = s.ledgers := rfl
@[simp] theorem bonds_setNominations : (s.setNominations a targets).bonds = s.bonds := rfl
@[simp] theorem nominees_setNominations :
    (s.setNominations a targets).nominees = Function.update s.nominees a (.ok targets) := rfl

end

/-! ### Writing to a map -/

section Put
variable {A : Type} [Codec A] [Inhabited A] [LawfulCodec A] {map : StorageMap A} {d : Data}
  {a : AccountId} {bytes : Value}

/-- Writing a value replaces it in its map. -/
theorem get_put {v : A} (h : Codec.encode v = .ok bytes) :
    map.get (map.put d a bytes) = Function.update (map.get d) a (.ok v) := by
  funext c
  by_cases hc : c = a
  · subst hc; rw [Function.update_self, map.get_put_self d c h]
  · rw [Function.update_of_ne hc, StorageMap.get_put_of_ne (.inr hc)]

omit [Codec A] [Inhabited A] [LawfulCodec A] in
theorem get_put_other {B : Type} [Codec B] [Inhabited B] {map' : StorageMap B}
    (h : map'.keyPrefix ≠ map.keyPrefix) : map'.get (map.put d a bytes) = map'.get d :=
  funext fun _ => StorageMap.get_put_of_ne (.inl h) d bytes

omit [Codec A] [Inhabited A] [LawfulCodec A] in
theorem balance_put_other (h : balanceOf.keyPrefix ≠ map.keyPrefix) :
    balance (map.put d a bytes) = balance d :=
  funext fun c => by rw [balance, balance, get_put_other h]

end Put

section
variable {d : Data} {a : AccountId} {bytes : Value}

theorem of_put_balance {b : AccountBalance} (h : Codec.encode b = .ok bytes) :
    of (balanceOf.put d a bytes) = (of d).setBalance a b := by
  refine Accounts.ext ?_ (get_put_other balanceOf_ledgerOf.symm)
    (get_put_other balanceOf_bonded.symm) (get_put_other balanceOf_nominations.symm)
  funext c
  have hget : balanceOf.get (balanceOf.put d a bytes) c =
      Function.update (balanceOf.get d) a (.ok b) c := congrFun (get_put h) c
  by_cases hc : c = a
  · subst hc
    rw [Function.update_self] at hget
    change balance _ c = Function.update (balance d) c b c
    rw [Function.update_self, balance, hget]
  · rw [Function.update_of_ne hc] at hget
    change balance _ c = Function.update (balance d) a b c
    rw [Function.update_of_ne hc, balance, balance, hget]

theorem of_put_ledger {l : StakingLedger} (h : Codec.encode l = .ok bytes) :
    of (ledgerOf.put d a bytes) = (of d).setLedger a l :=
  Accounts.ext (balance_put_other balanceOf_ledgerOf) (get_put h) (get_put_other ledgerOf_bonded.symm)
    (get_put_other ledgerOf_nominations.symm)

theorem of_put_bonded {stash : AccountId} (h : Codec.encode stash = .ok bytes) :
    of (bonded.put d a bytes) = (of d).setBonded a stash :=
  Accounts.ext (balance_put_other balanceOf_bonded) (get_put_other ledgerOf_bonded) (get_put h)
    (get_put_other bonded_nominations.symm)

theorem of_put_nominations {targets : List AccountId} (h : Codec.encode targets = .ok bytes) :
    of (nominations.put d a bytes) = (of d).setNominations a targets :=
  Accounts.ext (balance_put_other balanceOf_nominations) (get_put_other ledgerOf_nominations)
    (get_put_other bonded_nominations) (get_put h)

end
end Accounts

/-! ## The effects of the calls -/

open Accounts

/-- What a successful call of `origin` does to the accounts.  The writes stand in the
order in which the call makes them: a transfer to oneself reads the balance that it has
just written. -/
inductive Effect (origin : AccountId) (s : Accounts) : OuterCall → Accounts → Prop
  | transfer {dest : AccountId} {value remaining free : Balance}
    (hremaining : U128.checkedSub (s.balances origin).free value = some remaining)
    (hfree : U128.addAssign "free"
      ((s.setBalance origin { s.balances origin with free := remaining }).balances dest).free value =
        .ok free) :
    Effect origin s (.balances (.transfer dest value))
      ((s.setBalance origin { s.balances origin with free := remaining }).setBalance dest
        { (s.setBalance origin { s.balances origin with free := remaining }).balances dest with free })
  | bond {amount : Balance} {controller : AccountId} {b : AccountBalance}
    (hledger : s.ledgers origin = .ok default)
    (hreserve : (s.balances origin).reserve amount = .ok (.ok b)) :
    Effect origin s (.staking (.txBond amount controller))
      (((s.setBalance origin b).setBonded controller origin).setLedger origin
        { (default : StakingLedger) with controller, value := amount })
  | bondExtra {amount value : Balance} {l : StakingLedger} {b : AccountBalance}
    (hledger : s.ledgers origin = .ok l) (hbonded : l ≠ default)
    (hreserve : (s.balances origin).reserve amount = .ok (.ok b))
    (hvalue : U128.addAssign "value" l.value amount = .ok value) :
    Effect origin s (.staking (.txBondExtra amount))
      ((s.setBalance origin b).setLedger origin { l with value })
  | unbond {amount : Balance} {l : StakingLedger} {b : AccountBalance}
    (hledger : s.ledgers origin = .ok l) (hbonded : l ≠ default)
    (henough : amount.toNat ≤ l.value.toNat)
    (hunreserve : (s.balances origin).unreserve amount = .ok (.ok b)) :
    Effect origin s (.staking (.txUnbond amount))
      ((s.setLedger origin { l with value := l.value - amount }).setBalance origin b)
  | sameController {ctrl : AccountId} {l : StakingLedger} (hledger : s.ledgers origin = .ok l)
    (hbonded : l ≠ default) (hctrl : l.controller = ctrl) :
    Effect origin s (.staking (.txSetController ctrl)) s
  | setController {ctrl : AccountId} {l : StakingLedger} (hledger : s.ledgers origin = .ok l)
    (hbonded : l ≠ default) (hctrl : l.controller ≠ ctrl) :
    Effect origin s (.staking (.txSetController ctrl))
      (((s.setBonded l.controller default).setBonded ctrl origin).setLedger origin
        { l with controller := ctrl })
  | validate {stash : AccountId} {l : StakingLedger} (hstash : s.bonds origin = .ok stash)
    (hbonded : stash ≠ default) (hledger : s.ledgers stash = .ok l) (hl : l ≠ default) :
    Effect origin s (.staking .txValidate) (s.setLedger stash { l with role := .validator })
  | nominate {stash : AccountId} {l : StakingLedger} {targets : List AccountId}
    (hstash : s.bonds origin = .ok stash) (hbonded : stash ≠ default)
    (hledger : s.ledgers stash = .ok l) (hl : l ≠ default) :
    Effect origin s (.staking (.txNominate targets))
      ((s.setNominations stash targets).setLedger stash { l with role := .nominator })
  | chillNominator {stash : AccountId} {l : StakingLedger} (hstash : s.bonds origin = .ok stash)
    (hbonded : stash ≠ default) (hledger : s.ledgers stash = .ok l) (hl : l ≠ default)
    (hrole : l.role = .nominator) :
    Effect origin s (.staking .txChill)
      ((s.setNominations stash default).setLedger stash { l with role := .chilled })
  | chill {stash : AccountId} {l : StakingLedger} (hstash : s.bonds origin = .ok stash)
    (hbonded : stash ≠ default) (hledger : s.ledgers stash = .ok l) (hl : l ≠ default)
    (hrole : l.role ≠ .nominator) :
    Effect origin s (.staking .txChill) (s.setLedger stash { l with role := .chilled })

/-- The calls that change balances, and that can overflow one. -/
def OuterCall.MovesMoney : OuterCall → Prop
  | .balances _ | .staking (.txBond ..) | .staking (.txBondExtra _) | .staking (.txUnbond _) => True
  | _ => False

/-- The ways in which a call of `origin` may panic: each is an overflow, an entry that
cannot be read, or an `expect` whose reason does not hold in `s`. -/
inductive Faults (origin : AccountId) (s : Accounts) : OuterCall → Panic → Prop
  /-- The bytes of an entry are malformed. -/
  | malformed {call : OuterCall} {why : Panic}
    (h : (∃ a, s.ledgers a = .error why) ∨ ∃ a, s.bonds a = .error why) :
    Faults origin s call why
  /-- A balance overflows. -/
  | money {call : OuterCall} {why : Panic} (hcall : call.MovesMoney) (h : why.IsMoneyOverflow) :
    Faults origin s call why
  | extra {amount : Balance} {l : StakingLedger} {b : AccountBalance} {why : Panic}
    (hledger : s.ledgers origin = .ok l) (hbonded : l ≠ default)
    (hreserve : (s.balances origin).reserve amount = .ok (.ok b))
    (hvalue : U128.addAssign "value" l.value amount = .error why) :
    Faults origin s (.staking (.txBondExtra amount)) why
  | reserved {amount : Balance} {l : StakingLedger} {text : String}
    (hledger : s.ledgers origin = .ok l) (henough : amount.toNat ≤ l.value.toNat)
    (hunreserve : (s.balances origin).unreserve amount = .ok (.error text)) :
    Faults origin s (.staking (.txUnbond amount)) (.expect "Must have enough reserved")
  | missing {call : Staking.Call} {stash : AccountId}
    (hcall : call = .txValidate ∨ (∃ targets, call = .txNominate targets) ∨ call = .txChill)
    (hstash : s.bonds origin = .ok stash) (hbonded : stash ≠ default)
    (hledger : s.ledgers stash = .ok default) :
    Faults origin s (.staking call) (.message "Ledger must exist when Bonded exists.")
  | tooLong {targets : List AccountId} (h : 2 ^ 32 ≤ targets.length) :
    Faults origin s (.staking (.txNominate targets)) (.expect "Compact encodes length")

/-! ## A call that returns has its effect -/

section
variable {origin : AccountId} {d d' : Data}

theorem get_eq_ok {a : AccountId} {b : AccountBalance} (h : balanceOf.get d a = .ok b) :
    balance d a = b := by rw [balance, h]

theorem Balances.effect_transfer {dest : AccountId} {value : Balance}
    (h : (transfer origin dest value).run.run d = .ok (.ok (), d')) :
    Effect origin (of d) (.balances (.transfer dest value)) (of d') := by
  obtain ⟨old, _, hold, hrest⟩ := of_bindT_ok h
  obtain ⟨hget, rfl⟩ := StorageMap.of_read_ok (of_adapt_ok hold)
  obtain rfl := get_eq_ok hget
  split at hrest
  · rename_i remaining hremaining
    obtain ⟨_, _, hwrite, hmutate⟩ := of_bindT_ok hrest
    obtain ⟨bytes, hbytes, rfl⟩ := StorageMap.of_expect_ok hwrite
    obtain ⟨old', new, bytes', hget', hnew, hbytes', rfl⟩ :=
      StorageMap.of_mutate_ok (of_adapt_ok hmutate)
    have hold' := get_eq_ok hget'
    rw [of_put_balance hbytes', of_put_balance hbytes]
    have hbal : ((of d).setBalance origin { balance d origin with free := remaining }).balances dest
        = old' := (congrArg (fun s : Accounts => s.balances dest) (of_put_balance hbytes)).symm.trans
          hold'
    cases hfree : U128.addAssign "free" old'.free value with
    | error why => rw [hfree] at hnew; cases hnew
    | ok free =>
      rw [hfree] at hnew
      obtain rfl := Except.ok.inj hnew
      have hsame : (of d).balances origin = balance d origin := rfl
      have hsub : U128.checkedSub ((of d).balances origin).free value = some remaining := hremaining
      have hadd : U128.addAssign "free" (((of d).setBalance origin
          { (of d).balances origin with free := remaining }).balances dest).free value =
          .ok free := by
        rw [← hfree, ← hbal]; rfl
      have heffect := Effect.transfer hsub hadd
      rw [hsame, hbal] at heffect
      exact heffect
  · cases hrest

namespace Staking

theorem effect_txBond {amount : Balance} {controller : AccountId}
    (h : (txBond origin amount controller).run.run d = .ok (.ok (), d')) :
    Effect origin (of d) (.staking (.txBond amount controller)) (of d') := by
  obtain ⟨b, _, hexists, hrest⟩ := of_bindT_ok h
  obtain ⟨ledger, hledger, rfl, rfl⟩ := StorageMap.of_exists_ok (of_adapt_ok hexists)
  by_cases hl : ledger = default
  · simp only [hl, ne_eq, not_true_eq_false, decide_false, Bool.false_eq_true, ↓reduceIte] at hrest
    obtain ⟨old, _, hold, hrest⟩ := of_bindT_ok hrest
    obtain ⟨hget, rfl⟩ := StorageMap.of_read_ok (of_adapt_ok hold)
    obtain rfl := get_eq_ok hget
    obtain ⟨b, _, hreserve, hrest⟩ := of_bindT_ok hrest
    obtain ⟨hreserved, rfl⟩ := of_orLogicError_ok hreserve
    obtain ⟨_, _, hbalance, hrest⟩ := of_bindT_ok hrest
    obtain ⟨bytes, hbytes, rfl⟩ := StorageMap.of_expect_ok hbalance
    obtain ⟨_, _, hbonded, hrest⟩ := of_bindT_ok hrest
    obtain ⟨bytes', hbytes', rfl⟩ := StorageMap.of_write_ok (of_adapt_ok hbonded)
    obtain ⟨bytes'', hbytes'', rfl⟩ := StorageMap.of_expect_ok hrest
    rw [of_put_ledger hbytes'', of_put_bonded hbytes', of_put_balance hbytes]
    exact .bond (hl ▸ hledger) hreserved
  · simp only [hl, ne_eq, not_false_eq_true, decide_true, ↓reduceIte] at hrest
    cases hrest

theorem effect_txBondExtra {amount : Balance}
    (h : (txBondExtra origin amount).run.run d = .ok (.ok (), d')) :
    Effect origin (of d) (.staking (.txBondExtra amount)) (of d') := by
  obtain ⟨ledger, _, hread, hrest⟩ := of_bindT_ok h
  obtain ⟨hledger, rfl⟩ := StorageMap.of_read_ok (of_adapt_ok hread)
  by_cases hl : ledger = default
  · simp only [hl, ↓reduceIte] at hrest; cases hrest
  simp only [hl, ↓reduceIte] at hrest
  obtain ⟨old, _, hold, hrest⟩ := of_bindT_ok hrest
  obtain ⟨hget, rfl⟩ := StorageMap.of_read_ok (of_adapt_ok hold)
  obtain rfl := get_eq_ok hget
  obtain ⟨b, _, hreserve, hrest⟩ := of_bindT_ok hrest
  obtain ⟨hreserved, rfl⟩ := of_orLogicError_ok hreserve
  obtain ⟨_, _, hbalance, hrest⟩ := of_bindT_ok hrest
  obtain ⟨bytes, hbytes, rfl⟩ := StorageMap.of_expect_ok hbalance
  obtain ⟨value, _, hvalue, hrest⟩ := of_bindT_ok hrest
  obtain ⟨hadd, rfl⟩ := of_orPanic_ok hvalue
  obtain ⟨bytes', hbytes', rfl⟩ := StorageMap.of_expect_ok hrest
  rw [of_put_ledger hbytes', of_put_balance hbytes]
  exact .bondExtra hledger hl hreserved hadd

theorem effect_txUnbond {amount : Balance}
    (h : (txUnbond origin amount).run.run d = .ok (.ok (), d')) :
    Effect origin (of d) (.staking (.txUnbond amount)) (of d') := by
  obtain ⟨ledger, _, hread, hrest⟩ := of_bindT_ok h
  obtain ⟨hledger, rfl⟩ := StorageMap.of_read_ok (of_adapt_ok hread)
  by_cases hl : ledger = default
  · simp only [hl, ↓reduceIte] at hrest; cases hrest
  by_cases hvalue : ledger.value.toNat < amount.toNat
  · simp only [hl, hvalue, ↓reduceIte] at hrest; cases hrest
  have henough : amount.toNat ≤ ledger.value.toNat := Nat.le_of_not_lt hvalue
  simp only [hl, hvalue, ↓reduceIte, U128.checkedSub_of_le henough] at hrest
  obtain ⟨value, _, hsub, hrest⟩ := of_bindT_ok hrest
  obtain ⟨hvalue', rfl⟩ := of_orPanic_ok hsub
  obtain rfl := Except.ok.inj hvalue'
  obtain ⟨_, _, hwrite, hrest⟩ := of_bindT_ok hrest
  obtain ⟨bytes, hbytes, rfl⟩ := StorageMap.of_expect_ok hwrite
  obtain ⟨old, new, bytes', hget, hnew, hbytes', rfl⟩ :=
    StorageMap.of_mutate_ok (of_adapt_ok hrest)
  have hold : balance d origin = old := by
    rw [← get_eq_ok hget, balance_put_other balanceOf_ledgerOf]
  subst hold
  rw [of_put_balance hbytes', of_put_ledger hbytes]
  match hun : (balance d origin).unreserve amount with
  | .ok (.ok b) =>
    rw [hun] at hnew
    obtain rfl := Except.ok.inj hnew
    exact .unbond hledger hl henough hun
  | .ok (.error text) => rw [hun] at hnew; cases hnew
  | .error why => rw [hun] at hnew; cases hnew

theorem effect_txSetController {ctrl : AccountId}
    (h : (txSetController origin ctrl).run.run d = .ok (.ok (), d')) :
    Effect origin (of d) (.staking (.txSetController ctrl)) (of d') := by
  obtain ⟨ledger, _, hread, hrest⟩ := of_bindT_ok h
  obtain ⟨hledger, rfl⟩ := StorageMap.of_read_ok (of_adapt_ok hread)
  by_cases hl : ledger = default
  · simp only [hl, ↓reduceIte] at hrest; cases hrest
  by_cases hctrl : ledger.controller = ctrl
  · simp only [hl, hctrl, ↓reduceIte] at hrest
    obtain rfl : d = d' := by cases hrest; rfl
    exact .sameController hledger hl hctrl
  simp only [hl, hctrl, ↓reduceIte] at hrest
  obtain ⟨_, _, hclear, hrest⟩ := of_bindT_ok hrest
  obtain ⟨bytes, hbytes, rfl⟩ := StorageMap.of_write_ok (of_adapt_ok hclear)
  obtain ⟨_, _, hbonded, hrest⟩ := of_bindT_ok hrest
  obtain ⟨bytes', hbytes', rfl⟩ := StorageMap.of_write_ok (of_adapt_ok hbonded)
  obtain ⟨bytes'', hbytes'', rfl⟩ := StorageMap.of_expect_ok hrest
  rw [of_put_ledger hbytes'', of_put_bonded hbytes', of_put_bonded hbytes]
  exact .setController hledger hl hctrl

theorem of_bondedLedger_ok {stash : AccountId} {l : StakingLedger}
    (h : (bondedLedger origin).run.run d = .ok (.ok (stash, l), d')) :
    bonded.get d origin = .ok stash ∧ stash ≠ default ∧ ledgerOf.get d stash = .ok l ∧
      l ≠ default ∧ d = d' := by
  obtain ⟨stash', _, hread, hrest⟩ := of_bindT_ok h
  obtain ⟨hstash, rfl⟩ := StorageMap.of_read_ok (of_adapt_ok hread)
  by_cases hs : stash' = default
  · simp only [hs, ↓reduceIte] at hrest; cases hrest
  simp only [hs, ↓reduceIte] at hrest
  obtain ⟨l', _, hread', hrest⟩ := of_bindT_ok hrest
  obtain ⟨hledger, rfl⟩ := StorageMap.of_read_ok (of_adapt_ok hread')
  by_cases hl : l' = default
  · simp only [hl, ↓reduceIte] at hrest; cases hrest
  simp only [hl, ↓reduceIte] at hrest
  cases hrest
  exact ⟨hstash, hs, hledger, hl, rfl⟩

theorem effect_dispatch {call : Call}
    (h : (call.dispatch origin).run.run d = .ok (.ok (), d')) :
    Effect origin (of d) (.staking call) (of d') := by
  cases call with
  | txBond amount controller => exact effect_txBond h
  | txBondExtra amount => exact effect_txBondExtra h
  | txUnbond amount => exact effect_txUnbond h
  | txSetController ctrl => exact effect_txSetController h
  | txValidate =>
    obtain ⟨⟨stash, l⟩, _, hread, hrest⟩ := of_bindT_ok h
    obtain ⟨hstash, hs, hledger, hl, rfl⟩ := of_bondedLedger_ok hread
    obtain ⟨bytes, hbytes, rfl⟩ := StorageMap.of_expect_ok hrest
    rw [of_put_ledger hbytes]
    exact .validate hstash hs hledger hl
  | txNominate targets =>
    obtain ⟨⟨stash, l⟩, _, hread, hrest⟩ := of_bindT_ok h
    obtain ⟨hstash, hs, hledger, hl, rfl⟩ := of_bondedLedger_ok hread
    obtain ⟨_, _, hwrite, hrest⟩ := of_bindT_ok hrest
    obtain ⟨bytes, hbytes, rfl⟩ := StorageMap.of_write_ok (of_adapt_ok hwrite)
    obtain ⟨bytes', hbytes', rfl⟩ := StorageMap.of_expect_ok hrest
    rw [of_put_ledger hbytes', of_put_nominations hbytes]
    exact .nominate hstash hs hledger hl
  | txChill =>
    obtain ⟨⟨stash, l⟩, _, hread, hrest⟩ := of_bindT_ok h
    obtain ⟨hstash, hs, hledger, hl, rfl⟩ := of_bondedLedger_ok hread
    by_cases hrole : l.role = .nominator
    · simp only [hrole, ↓reduceIte] at hrest
      obtain ⟨_, _, hwrite, hrest⟩ := of_bindT_ok hrest
      obtain ⟨bytes, hbytes, rfl⟩ := StorageMap.of_write_ok (of_adapt_ok hwrite)
      obtain ⟨bytes', hbytes', rfl⟩ := StorageMap.of_expect_ok hrest
      rw [of_put_ledger hbytes', of_put_nominations hbytes]
      exact .chillNominator hstash hs hledger hl hrole
    · simp only [hrole, ↓reduceIte] at hrest
      obtain ⟨bytes, hbytes, rfl⟩ := StorageMap.of_expect_ok hrest
      rw [of_put_ledger hbytes]
      exact .chill hstash hs hledger hl hrole

end Staking

/-- **A call that returns `Ok` has its effect.**  By cases on the call: the program is
run symbolically, and each branch that returns `Ok` is a constructor of `Effect`. -/
theorem OuterCall.effect_of_run {call : OuterCall}
    (h : (call.dispatch origin).run.run d = .ok (.ok (), d')) :
    Effect origin (of d) call (of d') := by
  cases call with
  | balances call =>
    cases call with
    | transfer dest value => exact Balances.effect_transfer h
  | staking call => exact Staking.effect_dispatch h

/-! ## A call that panics has one of its faults -/

section
variable {why : Panic}

theorem encode_accounts_fault {targets : List AccountId}
    (h : (Codec.encode targets : Except Panic Value) = .error why) :
    2 ^ 32 ≤ targets.length ∧ why = .expect "Compact encodes length" := by
  have hall : ∀ as : List AccountId, ∃ bytes, encodeAll as = .ok bytes := by
    intro as
    induction as with
    | nil => exact ⟨_, rfl⟩
    | cons a as ih =>
      obtain ⟨bytes, hbytes⟩ := ih
      exact ⟨a.bytes ++ bytes, by rw [encodeAll, hbytes]; rfl⟩
  rw [encode_list] at h
  split at h
  · rename_i hlen
    exact ⟨hlen, (Except.error.inj h).symm⟩
  · obtain ⟨bytes, hbytes⟩ := hall targets
    rw [hbytes] at h
    cases h

theorem Balances.isMoneyOverflow_transfer {dest : AccountId} {value : Balance}
    (h : (transfer origin dest value).run.run d = .error why) : why.IsMoneyOverflow :=
  ⟨"free", .inl rfl, .inl ((faultsIn_transfer origin dest value).of_run h)⟩

namespace Staking

theorem faults_txBond {amount : Balance} {controller : AccountId}
    (h : (txBond origin amount controller).run.run d = .error why) :
    Faults origin (of d) (.staking (.txBond amount controller)) why := by
  rcases of_bindT_fault h with hexists | ⟨b, _, hexists, hrest⟩
  · exact .malformed (.inl ⟨_, StorageMap.of_exists_fault (of_adapt_fault hexists)⟩)
  cases b with
  | true => cases hrest
  | false =>
    rcases of_bindT_fault hrest with hread | ⟨old, _, hread, hrest⟩
    · exact absurd (StorageMap.of_read_fault (of_adapt_fault hread)) get_balance_ne_error
    rcases of_bindT_fault hrest with hreserve | ⟨new, _, hreserve, hrest⟩
    · exact .money trivial (AccountBalance.isMoneyOverflow_reserve (of_orLogicError_fault hreserve))
    rcases of_bindT_fault hrest with hwrite | ⟨_, _, hwrite, hrest⟩
    · cases StorageMap.of_expect_fault hwrite
    rcases of_bindT_fault hrest with hwrite | ⟨_, _, hwrite, hrest⟩
    · cases StorageMap.of_write_fault (of_adapt_fault hwrite)
    · cases StorageMap.of_expect_fault hrest

theorem faults_txBondExtra {amount : Balance}
    (h : (txBondExtra origin amount).run.run d = .error why) :
    Faults origin (of d) (.staking (.txBondExtra amount)) why := by
  rcases of_bindT_fault h with hread | ⟨ledger, _, hread, hrest⟩
  · exact .malformed (.inl ⟨_, StorageMap.of_read_fault (of_adapt_fault hread)⟩)
  obtain ⟨hledger, rfl⟩ := StorageMap.of_read_ok (of_adapt_ok hread)
  by_cases hl : ledger = default
  · simp only [hl, ↓reduceIte] at hrest; cases hrest
  simp only [hl, ↓reduceIte] at hrest
  rcases of_bindT_fault hrest with hread | ⟨old, _, hread, hrest⟩
  · exact absurd (StorageMap.of_read_fault (of_adapt_fault hread)) get_balance_ne_error
  obtain ⟨hget, rfl⟩ := StorageMap.of_read_ok (of_adapt_ok hread)
  obtain rfl := get_eq_ok hget
  rcases of_bindT_fault hrest with hreserve | ⟨new, _, hreserve, hrest⟩
  · exact .money trivial (AccountBalance.isMoneyOverflow_reserve (of_orLogicError_fault hreserve))
  obtain ⟨hreserved, rfl⟩ := of_orLogicError_ok hreserve
  rcases of_bindT_fault hrest with hwrite | ⟨_, _, hwrite, hrest⟩
  · cases StorageMap.of_expect_fault hwrite
  rcases of_bindT_fault hrest with hvalue | ⟨value, _, hvalue, hrest⟩
  · exact .extra hledger hl hreserved (of_orPanic_fault hvalue)
  · cases StorageMap.of_expect_fault hrest

theorem faults_txUnbond {amount : Balance}
    (h : (txUnbond origin amount).run.run d = .error why) :
    Faults origin (of d) (.staking (.txUnbond amount)) why := by
  rcases of_bindT_fault h with hread | ⟨ledger, _, hread, hrest⟩
  · exact .malformed (.inl ⟨_, StorageMap.of_read_fault (of_adapt_fault hread)⟩)
  obtain ⟨hledger, rfl⟩ := StorageMap.of_read_ok (of_adapt_ok hread)
  by_cases hl : ledger = default
  · simp only [hl, ↓reduceIte] at hrest; cases hrest
  by_cases hvalue : ledger.value.toNat < amount.toNat
  · simp only [hl, hvalue, ↓reduceIte] at hrest; cases hrest
  have henough : amount.toNat ≤ ledger.value.toNat := Nat.le_of_not_lt hvalue
  simp only [hl, hvalue, ↓reduceIte, U128.checkedSub_of_le henough] at hrest
  rcases of_bindT_fault hrest with hsub | ⟨value, _, hsub, hrest⟩
  · cases of_orPanic_fault hsub
  obtain ⟨hvalue', rfl⟩ := of_orPanic_ok hsub
  rcases of_bindT_fault hrest with hwrite | ⟨_, _, hwrite, hrest⟩
  · cases StorageMap.of_expect_fault hwrite
  obtain ⟨bytes, hbytes, rfl⟩ := StorageMap.of_expect_ok hwrite
  rcases StorageMap.of_mutate_fault (of_adapt_fault hrest) with hget |
    ⟨old, hget, hnew | ⟨new, hnew, hencode⟩⟩
  · exact absurd hget get_balance_ne_error
  · have hold : balance d origin = old := by
      rw [← get_eq_ok hget, balance_put_other balanceOf_ledgerOf]
    subst hold
    match hun : (balance d origin).unreserve amount with
    | .ok (.ok b) => rw [hun] at hnew; cases hnew
    | .ok (.error text) =>
      rw [hun] at hnew
      obtain rfl := Except.error.inj hnew
      exact .reserved hledger henough hun
    | .error p =>
      rw [hun] at hnew
      obtain rfl := Except.error.inj hnew
      exact .money trivial (AccountBalance.isMoneyOverflow_unreserve hun)
  · cases hencode

theorem faults_txSetController {ctrl : AccountId}
    (h : (txSetController origin ctrl).run.run d = .error why) :
    Faults origin (of d) (.staking (.txSetController ctrl)) why := by
  rcases of_bindT_fault h with hread | ⟨ledger, _, hread, hrest⟩
  · exact .malformed (.inl ⟨_, StorageMap.of_read_fault (of_adapt_fault hread)⟩)
  by_cases hl : ledger = default
  · simp only [hl, ↓reduceIte] at hrest; cases hrest
  by_cases hctrl : ledger.controller = ctrl
  · simp only [hl, hctrl, ↓reduceIte] at hrest; cases hrest
  simp only [hl, hctrl, ↓reduceIte] at hrest
  rcases of_bindT_fault hrest with hclear | ⟨_, _, hclear, hrest⟩
  · cases StorageMap.of_write_fault (of_adapt_fault hclear)
  rcases of_bindT_fault hrest with hwrite | ⟨_, _, hwrite, hrest⟩
  · cases StorageMap.of_write_fault (of_adapt_fault hwrite)
  · cases StorageMap.of_expect_fault hrest

theorem faults_bondedLedger {call : Call}
    (hcall : call = .txValidate ∨ (∃ targets, call = .txNominate targets) ∨ call = .txChill)
    (h : (bondedLedger origin).run.run d = .error why) :
    Faults origin (of d) (.staking call) why := by
  rcases of_bindT_fault h with hread | ⟨stash, _, hread, hrest⟩
  · exact .malformed (.inr ⟨_, StorageMap.of_read_fault (of_adapt_fault hread)⟩)
  obtain ⟨hstash, rfl⟩ := StorageMap.of_read_ok (of_adapt_ok hread)
  by_cases hs : stash = default
  · simp only [hs, ↓reduceIte] at hrest; cases hrest
  simp only [hs, ↓reduceIte] at hrest
  rcases of_bindT_fault hrest with hread' | ⟨l, _, hread', hrest⟩
  · exact .malformed (.inl ⟨_, StorageMap.of_read_fault (of_adapt_fault hread')⟩)
  obtain ⟨hledger, rfl⟩ := StorageMap.of_read_ok (of_adapt_ok hread')
  by_cases hl : l = default
  · subst hl
    obtain rfl : Panic.message "Ledger must exist when Bonded exists." = why := by
      cases hrest; rfl
    exact .missing hcall hstash hs hledger
  · simp only [hl, ↓reduceIte] at hrest; cases hrest

theorem faults_dispatch {call : Call} (h : (call.dispatch origin).run.run d = .error why) :
    Faults origin (of d) (.staking call) why := by
  cases call with
  | txBond amount controller => exact faults_txBond h
  | txBondExtra amount => exact faults_txBondExtra h
  | txUnbond amount => exact faults_txUnbond h
  | txSetController ctrl => exact faults_txSetController h
  | txValidate =>
    rcases of_bindT_fault h with hread | ⟨⟨stash, l⟩, _, hread, hrest⟩
    · exact faults_bondedLedger (.inl rfl) hread
    · cases StorageMap.of_expect_fault hrest
  | txNominate targets =>
    rcases of_bindT_fault h with hread | ⟨⟨stash, l⟩, _, hread, hrest⟩
    · exact faults_bondedLedger (.inr (.inl ⟨targets, rfl⟩)) hread
    rcases of_bindT_fault hrest with hwrite | ⟨_, _, hwrite, hrest⟩
    · obtain ⟨hlen, rfl⟩ := encode_accounts_fault (StorageMap.of_write_fault (of_adapt_fault hwrite))
      exact .tooLong hlen
    · cases StorageMap.of_expect_fault hrest
  | txChill =>
    rcases of_bindT_fault h with hread | ⟨⟨stash, l⟩, _, hread, hrest⟩
    · exact faults_bondedLedger (.inr (.inr rfl)) hread
    by_cases hrole : l.role = .nominator
    · simp only [hrole, ↓reduceIte] at hrest
      rcases of_bindT_fault hrest with hwrite | ⟨_, _, hwrite, hrest⟩
      · cases StorageMap.of_write_fault (of_adapt_fault hwrite)
      · cases StorageMap.of_expect_fault hrest
    · simp only [hrole, ↓reduceIte] at hrest
      cases StorageMap.of_expect_fault hrest

end Staking

/-- **A call panics in one of its faults only.**  Keys that a call has read are its own,
so none of the `expect`s about ownership is among them. -/
theorem OuterCall.faults_of_run {call : OuterCall}
    (h : (call.dispatch origin).run.run d = .error why) : Faults origin (of d) call why := by
  cases call with
  | balances call =>
    cases call with
    | transfer dest value => exact .money trivial (Balances.isMoneyOverflow_transfer h)
  | staking call => exact Staking.faults_dispatch h

end

end

/-! ## Dispatches -/

theorem StakingLedger.panicsIn_decode {allowed : Panic → Prop}
    (hshort : allowed (.expect "Encoded public mut be exactly `PUBLIC_KEY_LENGTH`")) :
    Decoder.PanicsIn allowed (Codec.decode : Decoder StakingLedger) :=
  Decoder.PanicsIn.bind panicsIn_decode_u128 fun _ => .bind (Public.panicsIn_decode hshort) fun _ =>
    .bind StakingRole.panicsIn_decode fun _ => .pure _

/-- What reading malformed bytes panics with. -/
theorem text_of_malformed {d : Data} {a : AccountId} {why : Panic}
    (h : (of d).ledgers a = .error why ∨ (of d).bonds a = .error why) :
    why = .expect "Encoded public mut be exactly `PUBLIC_KEY_LENGTH`" := by
  let allowed (p : Panic) : Prop := p = .expect "Encoded public mut be exactly `PUBLIC_KEY_LENGTH`"
  suffices allowed why from this
  rcases h with h | h
  · exact StorageMap.panicsIn_decodeOrDefault (StakingLedger.panicsIn_decode rfl) h
  · exact StorageMap.panicsIn_decodeOrDefault (Public.panicsIn_decode rfl) h

/-- No other thread owns a key that the dispatch touches.  A dispatch through the
sequential runtime, which does not look at taints, is always granted. -/
def AnyDispatch.Granted (x : AnyDispatch) (state : StateMap) : Prop :=
  ∀ order id, x.via = some (order, id) →
    ¬ ConcurrentRuntime.Contended id (x.call.dispatch x.origin).run state

/-- **A dispatch through either runtime has the effect of its call, or leaves
the data as it was.**  It has its effect exactly when it returns `Ok`: a refusal and a
failure both leave the data alone, though the concurrent runtime keeps the taints. -/
theorem AnyDispatch.of_apply {x : AnyDispatch} {state state' : StateMap}
    {result : RuntimeDispatchResult} (h : x.apply state = .ok (result, state')) :
    result = .ok .ok ∧ x.Granted state ∧ Effect x.origin (of state.data) x.call (of state'.data) ∨
      result ≠ .ok .ok ∧ state'.data = state.data := by
  have hbody : ∀ r, (x.call.dispatch x.origin).run.run state.data = .ok (r, state'.data) →
      result = toRuntimeDispatchResult r → (result = .ok .ok → x.Granted state) →
      result = .ok .ok ∧ x.Granted state ∧ Effect x.origin (of state.data) x.call (of state'.data) ∨
        result ≠ .ok .ok ∧ state'.data = state.data := by
    rintro (e | u) hrun rfl hgranted
    · refine .inr ⟨?_, (OuterCall.unchanged_of_run hrun).1⟩
      cases e <;> simp [toRuntimeDispatchResult]
    · exact .inl ⟨rfl, hgranted rfl, OuterCall.effect_of_run hrun⟩
  obtain ⟨via, call, origin⟩ := x
  match via with
  | some (order, id) =>
    have hcases := ConcurrentRuntime.dispatch_cases order id call origin state
    dsimp only [apply] at h
    cases hdispatch : ConcurrentRuntime.dispatch order (.new id) state call origin with
    | error why => rw [hdispatch] at h; cases h
    | ok out =>
      obtain ⟨result', runtime, state''⟩ := out
      rw [hdispatch] at h hcases
      obtain ⟨rfl, rfl⟩ := Prod.mk.inj (Except.ok.inj h)
      obtain ⟨-, ⟨r, hrun, hresult⟩ | ⟨-, hdata, owner, orphan, hresult⟩⟩ := hcases
      · refine hbody r hrun hresult fun hok order' id' hvia => ?_
        obtain ⟨rfl, rfl⟩ := Prod.mk.inj (Option.some.inj hvia)
        subst hok
        exact ConcurrentRuntime.not_contended_of_ok hdispatch
      · exact .inr ⟨by rw [hresult]; nofun, hdata⟩
  | none =>
    dsimp only [apply] at h
    cases hrun : (call.dispatch origin).run.run state.data with
    | error why => rw [SequentialRuntime.dispatch_of_error hrun] at h; cases h
    | ok out =>
      obtain ⟨r, d⟩ := out
      obtain ⟨state'', hdispatch, hdata, -⟩ := SequentialRuntime.dispatch_of_ok hrun
      rw [hdispatch] at h
      obtain ⟨rfl, rfl⟩ := Prod.mk.inj (Except.ok.inj h)
      exact hbody r (hdata ▸ hrun) rfl fun _ => nofun

/-- **A dispatch through either runtime panics in a fault of its call only.** -/
theorem AnyDispatch.faults {x : AnyDispatch} {state : StateMap} {why : Panic}
    (h : x.apply state = .error why) : Faults x.origin (of state.data) x.call why := by
  obtain ⟨via, call, origin⟩ := x
  match via with
  | some (order, id) =>
    dsimp only [apply] at h
    cases hdispatch : ConcurrentRuntime.dispatch order (.new id) state call origin with
    | ok out => rw [hdispatch] at h; cases h
    | error p =>
      rw [hdispatch] at h
      obtain rfl := Except.error.inj h
      exact OuterCall.faults_of_run (ConcurrentRuntime.dispatch_panics hdispatch)
  | none =>
    dsimp only [apply] at h
    cases hrun : (call.dispatch origin).run.run state.data with
    | error p =>
      rw [SequentialRuntime.dispatch_of_error hrun] at h
      obtain rfl := Except.error.inj h
      exact OuterCall.faults_of_run hrun
    | ok out =>
      obtain ⟨r, d⟩ := out
      obtain ⟨state'', hdispatch, -⟩ := SequentialRuntime.dispatch_of_ok hrun
      rw [hdispatch] at h
      cases h

/-- Each dispatch of the sequence satisfies `Q` in the state that it finds, which is
the one that the dispatches before it have left. -/
def AnyDispatch.Each (Q : AnyDispatch → StateMap → Prop) (xs : List AnyDispatch)
    (state : StateMap) : Prop :=
  ∀ ys x zs s, xs = ys ++ x :: zs → applyAll ys state = .ok s → Q x s

namespace AnyDispatch
variable {P : Accounts → Prop} {Q : AnyDispatch → StateMap → Prop} {xs : List AnyDispatch}
  {state state' : StateMap}

theorem Each.cons {x : AnyDispatch} (h : Each Q (x :: xs) state) {result : RuntimeDispatchResult}
    (hx : x.apply state = .ok (result, state')) : Q x state ∧ Each Q xs state' := by
  refine ⟨h [] x xs state rfl rfl, fun ys y zs s hxs hs => ?_⟩
  refine h (x :: ys) y zs s (by rw [hxs]; rfl) ?_
  rw [applyAll, hx]
  exact hs

theorem Each.of_nil : Each Q [] state := by
  intro ys x zs s hxs
  exact absurd hxs (by simp)

/-- The first dispatch, and then each of the others. -/
theorem Each.of_cons {x : AnyDispatch} (hx : Q x state)
    (hxs : ∀ result s, x.apply state = .ok (result, s) → Each Q xs s) : Each Q (x :: xs) state := by
  rintro (_ | ⟨y, ys⟩) z zs s hsplit hs
  · obtain ⟨rfl, -⟩ := List.cons.inj hsplit
    obtain rfl := Except.ok.inj hs
    exact hx
  · obtain ⟨rfl, hrest⟩ := List.cons.inj hsplit
    rw [applyAll] at hs
    cases happly : x.apply state with
    | error why => rw [happly] at hs; cases hs
    | ok out =>
      rw [happly] at hs
      exact hxs out.1 out.2 happly ys z zs s hrest hs

/-- **What the effect of each dispatch keeps, the sequence keeps**, when each dispatch
satisfies a condition of its own: the induction that every invariant of the accounts
shares. -/
theorem applyAll_invariant_of_each
    (hstep : ∀ x state s', Q x state → x.Granted state →
      Effect x.origin (of state.data) x.call s' → P (of state.data) → P s')
    (heach : Each Q xs state) (hrun : applyAll xs state = .ok state') (h : P (of state.data)) :
    P (of state'.data) := by
  induction xs generalizing state with
  | nil =>
    obtain rfl := Except.ok.inj hrun
    exact h
  | cons x xs ih =>
    rw [applyAll] at hrun
    cases hx : x.apply state with
    | error why => rw [hx] at hrun; cases hrun
    | ok out =>
      rw [hx] at hrun
      obtain ⟨hq, hrest⟩ := heach.cons hx
      refine ih hrest hrun ?_
      rcases of_apply hx with ⟨-, hgranted, heffect⟩ | ⟨-, hdata⟩
      · exact hstep x state _ hq hgranted heffect h
      · exact hdata ▸ h

theorem applyAll_invariant
    (hstep : ∀ {origin s call s'}, Effect origin s call s' → P s → P s')
    (hrun : applyAll xs state = .ok state') (h : P (of state.data)) : P (of state'.data) :=
  applyAll_invariant_of_each (Q := fun _ _ => True) (fun _ _ _ _ _ he => hstep he)
    (fun _ _ _ _ _ _ => trivial) hrun h

end AnyDispatch

end SonicChain
