import SonicChain.RuntimeAgreement
import SonicChain.TypedStorage
import Mathlib.Algebra.BigOperators.Finprod
import Mathlib.Algebra.Order.BigOperators.Group.Finset

/-! # Conservation of money

The sum of free and reserved balances over all accounts is kept by every call.
While it fits in a `u128`, no addition or subtraction on a balance overflows:
what is added to one account has been taken from the sum, and no account holds
more than the sum.
-/

namespace SonicChain
open StoreProgram

/-- Replacing one term of a finite sum. -/
theorem finsum_update {ι : Type} [Finite ι] [DecidableEq ι] (f : ι → Nat) (i : ι) (n : Nat) :
    ∑ᶠ j, Function.update f i n j + f i = ∑ᶠ j, f j + n := by
  have := Fintype.ofFinite ι
  rw [finsum_eq_sum_of_fintype, finsum_eq_sum_of_fintype,
    Finset.sum_update_of_mem (Finset.mem_univ i),
    ← Finset.sum_sdiff (Finset.subset_univ {i}) (f := f), Finset.sum_singleton]
  omega

/-- A term of a finite sum is at most the sum. -/
theorem le_finsum {ι : Type} [Finite ι] [DecidableEq ι] (f : ι → Nat) (i : ι) :
    f i ≤ ∑ᶠ j, f j := by
  have := finsum_update f i 0
  omega

/-- What an account holds. -/
def AccountBalance.worth (b : AccountBalance) : Nat := b.free.toNat + b.reserved.toNat

/-- The panics of additions and subtractions on a balance. -/
def Panic.IsMoneyOverflow (p : Panic) : Prop :=
  ∃ field, (field = "free" ∨ field = "reserved") ∧ (p = .addOverflow field ∨ p = .subOverflow field)

theorem Panic.IsExpect.not_isMoneyOverflow {p : Panic} (h : p.IsExpect) : ¬ p.IsMoneyOverflow := by
  obtain ⟨text, rfl⟩ := h
  rintro ⟨field, -, h | h⟩ <;> cases h

theorem AccountBalance.reserve_cases (b : AccountBalance) (amount : Balance) (hb : b.worth < 2 ^ 128) :
    (∃ why, b.reserve amount = .ok (.error why)) ∨
      ∃ b', b.reserve amount = .ok (.ok b') ∧ b'.worth = b.worth := by
  by_cases hspend : amount.toNat ≤ b.free.toNat
  · have hadd : b.reserved.toNat + amount.toNat < 2 ^ 128 := by unfold worth at hb; omega
    refine Or.inr ⟨⟨b.free - amount, b.reserved + amount⟩, ?_, ?_⟩
    · simp only [reserve, canSpend, hspend, decide_true, ↓reduceIte, U128.subAssign_of_le,
        U128.addAssign_of_lt _ hadd]
      rfl
    · rw [worth, U128.toNat_sub_of_le hspend, U128.toNat_add_of_lt hadd, worth]
      omega
  · exact Or.inl ⟨_, by simp [reserve, canSpend, hspend]; rfl⟩

theorem AccountBalance.unreserve_cases (b : AccountBalance) (amount : Balance)
    (hb : b.worth < 2 ^ 128) :
    (∃ why, b.unreserve amount = .ok (.error why)) ∨
      ∃ b', b.unreserve amount = .ok (.ok b') ∧ b'.worth = b.worth := by
  by_cases henough : amount.toNat ≤ b.reserved.toNat
  · have hadd : b.free.toNat + amount.toNat < 2 ^ 128 := by unfold worth at hb; omega
    refine Or.inr ⟨⟨b.free + amount, b.reserved - amount⟩, ?_, ?_⟩
    · simp only [unreserve, henough, ↓reduceIte, U128.subAssign_of_le,
        U128.addAssign_of_lt _ hadd]
      rfl
    · rw [worth, U128.toNat_sub_of_le henough, U128.toNat_add_of_lt hadd, worth]
      omega
  · exact Or.inl ⟨_, by simp [unreserve, henough]; rfl⟩

/-! What fails in `reserve` and `unreserve` with a panic is the arithmetic. -/

theorem AccountBalance.isMoneyOverflow_reserve {b : AccountBalance} {amount : Balance} {why : Panic}
    (h : b.reserve amount = .error why) : why.IsMoneyOverflow := by
  unfold AccountBalance.reserve at h
  split at h
  · cases hfree : U128.subAssign "free" b.free amount with
    | error p =>
      rw [hfree] at h
      cases h
      exact ⟨"free", .inl rfl, .inr (U128.of_subAssign_error hfree)⟩
    | ok free =>
      cases hreserved : U128.addAssign "reserved" b.reserved amount with
      | error p =>
        rw [hfree, hreserved] at h
        cases h
        exact ⟨"reserved", .inr rfl, .inl (U128.of_addAssign_error hreserved)⟩
      | ok reserved => rw [hfree, hreserved] at h; cases h
  · cases h

theorem AccountBalance.isMoneyOverflow_unreserve {b : AccountBalance} {amount : Balance} {why : Panic}
    (h : b.unreserve amount = .error why) : why.IsMoneyOverflow := by
  unfold AccountBalance.unreserve at h
  split at h
  · cases hreserved : U128.subAssign "reserved" b.reserved amount with
    | error p =>
      rw [hreserved] at h
      cases h
      exact ⟨"reserved", .inr rfl, .inr (U128.of_subAssign_error hreserved)⟩
    | ok reserved =>
      cases hfree : U128.addAssign "free" b.free amount with
      | error p =>
        rw [hreserved, hfree] at h
        cases h
        exact ⟨"free", .inl rfl, .inl (U128.of_addAssign_error hfree)⟩
      | ok free => rw [hreserved, hfree] at h; cases h
  · cases h

section
variable [Ed25519]

/-- Reading a balance panics nowhere. -/
theorem get_balanceOf (d : Data) (a : AccountId) : ∃ b, balanceOf.get d a = .ok b := by
  rw [StorageMap.get, StorageMap.decodeOrDefault]
  split
  · exact ⟨_, rfl⟩
  · exact ⟨_, rfl⟩
  · rename_i why h
    have hnever : Decoder.PanicsIn (fun _ => False) (Codec.decode : Decoder AccountBalance) :=
      AccountBalance.panicsIn_decode
    exact absurd h (hnever _ _)

/-- The balance of an account. -/
def balance (d : Data) (a : AccountId) : AccountBalance :=
  match balanceOf.get d a with
  | .ok b => b
  | .error _ => default

theorem get_eq_balance (d : Data) (a : AccountId) : balanceOf.get d a = .ok (balance d a) := by
  obtain ⟨b, hb⟩ := get_balanceOf d a
  rw [balance, hb]

theorem get_balance_ne_error {d : Data} {a : AccountId} {why : Panic} : balanceOf.get d a ≠ .error why := by
  rw [get_eq_balance]; nofun

/-- The sum of free and reserved over all accounts. -/
noncomputable def totalMoney (d : Data) : Nat := ∑ᶠ a : AccountId, (balance d a).worth

theorem worth_le_totalMoney (d : Data) (a : AccountId) : (balance d a).worth ≤ totalMoney d :=
  le_finsum (fun a => (balance d a).worth) a

/-- Writing a balance changes the total by what the account then holds instead. -/
theorem totalMoney_put (d : Data) (a : AccountId) {b : AccountBalance} {bytes : Value}
    (h : Codec.encode b = .ok bytes) :
    totalMoney (balanceOf.put d a bytes) + (balance d a).worth = totalMoney d + b.worth := by
  have hput : (fun c => (balance (balanceOf.put d a bytes) c).worth) =
      Function.update (fun c => (balance d c).worth) a b.worth := by
    funext c
    by_cases hc : c = a
    · subst hc
      rw [Function.update_self, balance, balanceOf.get_put_self d c h]
    · rw [Function.update_of_ne hc, balance, StorageMap.get_put_of_ne (Or.inr hc), balance]
  rw [totalMoney, hput]
  exact finsum_update _ a _

/-- The total depends on the balances alone. -/
theorem totalMoney_congr {d d' : Data} (h : ∀ a, d' (balanceOf.keyFor a) = d (balanceOf.keyFor a)) :
    totalMoney d' = totalMoney d := by
  have hb : ∀ a, balance d' a = balance d a := fun a => by
    rw [balance, balance, StorageMap.get, StorageMap.get, h]
  simp only [totalMoney, hb]

theorem totalMoney_put_of_ne {A : Type} {map : StorageMap A}
    (h : balanceOf.keyPrefix ≠ map.keyPrefix) (d : Data) (a : AccountId) (bytes : Value) :
    totalMoney (map.put d a bytes) = totalMoney d :=
  totalMoney_congr fun _ => Function.update_of_ne (fun hk => h (StorageMap.keyFor_inj hk).1) _ _

/-! ## Every call keeps the total -/

/-- The panics that the money arithmetic never raises. -/
abbrev MoneySafe (p : Panic) : Prop := ¬ p.IsMoneyOverflow

/-- The call keeps the total of the balances at `M`. -/
abbrev KeepsTotal {A : Type} (M : Nat) (call : Dispatch A) : Prop :=
  Triple (fun d => totalMoney d = M) call (fun _ d => totalMoney d = M) MoneySafe

omit [Ed25519] in
theorem moneySafe_expect (text : String) : MoneySafe (.expect text) :=
  Panic.IsExpect.not_isMoneyOverflow ⟨text, rfl⟩

theorem triple_read_balance {P : Data → Prop} (a : AccountId) :
    Triple P (balanceOf.read a) (fun b d => balance d a = b ∧ P d) MoneySafe := by
  have h := balanceOf.triple_read a (P := P) (G := MoneySafe) fun d _ why h => by
    rw [get_eq_balance] at h; cases h
  refine h.post fun b d hd => ⟨?_, hd.2⟩
  have := hd.1
  rw [get_eq_balance] at this
  exact Except.ok.inj this

theorem triple_write_balance {Q : Data → Prop} (a : AccountId) (b : AccountBalance) :
    Triple (fun d => ∀ d', totalMoney d' + (balance d a).worth = totalMoney d + b.worth → Q d')
      (balanceOf.write a b) (fun _ => Q) MoneySafe :=
  (balanceOf.triple_write a fun why h => by cases h).pre fun d hd _ hb =>
    hd _ (totalMoney_put d a hb)

theorem triple_read_other {A : Type} [Codec A] [Inhabited A] [ExpectingCodec A] {P : Data → Prop}
    (map : StorageMap A) (a : AccountId) : Triple P (map.read a) (fun _ => P) MoneySafe :=
  (map.triple_read a fun _ _ _ h =>
    (StorageMap.isExpect_decodeOrDefault h).not_isMoneyOverflow).post fun _ _ hd => hd.2

theorem triple_write_other {A : Type} [Codec A] [ExpectingCodec A] {M : Nat} {map : StorageMap A}
    (hmap : balanceOf.keyPrefix ≠ map.keyPrefix) (a : AccountId) (v : A) :
    Triple (fun d => totalMoney d = M) (map.write a v) (fun _ d => totalMoney d = M) MoneySafe := by
  refine (map.triple_write a fun why h =>
    (ExpectingCodec.encode_panic _ _ h).not_isMoneyOverflow).pre fun d hd bytes _ => ?_
  rw [totalMoney_put_of_ne hmap, hd]

section Calls
variable {M : Nat}

theorem keepsTotal_transfer (hM : M ≤ U128.max) (origin dest : AccountId) (value : Balance) :
    KeepsTotal M (Balances.transfer origin dest value) := by
  refine Triple.bind (triple_adapt (triple_read_balance origin) _) fun b => ?_
  split
  · rename_i remaining hsub
    obtain ⟨hle, hremaining⟩ := U128.of_checkedSub_eq_some hsub
    -- Between the two writes, `value` is missing from the total.
    refine Triple.bind (Q := fun _ d => totalMoney d + value.toNat = M)
      (triple_expect (moneySafe_expect _) ((triple_write_balance origin _).pre ?_))
      fun _ => triple_adapt ?_ _
    · intro d ⟨hb, hd⟩ d' hd'
      simp only [hb, AccountBalance.worth] at hd'
      omega
    · refine Triple.bind (triple_read_balance dest) fun old => ?_
      refine Triple.bind (Q := fun new d => new.worth = old.worth + value.toNat ∧
          balance d dest = old ∧ totalMoney d + value.toNat = M) ?_ fun new => ?_
      · intro d ⟨hold, hd⟩
        have hworth := worth_le_totalMoney d dest
        rw [hold, AccountBalance.worth] at hworth
        have hlt : old.free.toNat + value.toNat < 2 ^ 128 := by
          simp only [U128.max] at hM
          omega
        simp only [U128.addAssign_of_lt _ hlt]
        refine ⟨?_, hold, hd⟩
        simp only [AccountBalance.worth, U128.toNat_add_of_lt hlt]
        omega
      · refine (triple_write_balance dest new).pre fun d ⟨hnew, hold, hd⟩ d' hd' => ?_
        rw [hold, hnew] at hd'
        omega
  · exact Triple.fail _

/-- Read a balance, reserve, and write it back. -/
theorem triple_reserve (hM : M ≤ U128.max) (stash : AccountId) (amount : Balance) {A : Type}
    {next : Dispatch A} {f : ThreadId → DispatchError} (hnext : KeepsTotal M next) :
    KeepsTotal M (do
      let balance ← (balanceOf.read stash).adapt f
      let balance ← orLogicError (balance.reserve amount)
      expect "Must be owned." (balanceOf.write stash balance)
      next) := by
  refine Triple.bind (triple_adapt (triple_read_balance stash) _) fun b => ?_
  refine Triple.bind (Q := fun b' d => b'.worth = b.worth ∧ balance d stash = b ∧ totalMoney d = M)
    ?_ fun b' => Triple.bind (triple_expect (moneySafe_expect _)
      ((triple_write_balance stash b').pre ?_)) fun _ => hnext
  · intro d ⟨hb, hd⟩
    have hworth : b.worth < 2 ^ 128 := by
      have := worth_le_totalMoney d stash
      simp only [U128.max] at hM
      rw [hb] at this
      omega
    rcases b.reserve_cases amount hworth with ⟨why, h⟩ | ⟨b', h, hb'⟩
    · rw [h]; trivial
    · rw [h]; exact ⟨hb', hb, hd⟩
  · intro d ⟨hb', hb, hd⟩ d' hd'
    rw [hb, hb'] at hd'
    omega

theorem keepsTotal_txBond (hM : M ≤ U128.max) (stash controller : AccountId) (amount : Balance) :
    KeepsTotal M (Staking.txBond stash amount controller) := by
  refine Triple.bind (Q := fun _ d => totalMoney d = M) (triple_adapt ?_ _) fun b => ?_
  · exact Triple.bind (triple_read_other ledgerOf stash) fun _ => Triple.done fun _ hd => hd
  cases b with
  | true => exact Triple.fail _
  | false =>
    refine triple_reserve hM stash amount ?_
    refine Triple.bind (triple_adapt (triple_write_other balanceOf_bonded controller stash) _)
      fun _ => ?_
    exact triple_expect (moneySafe_expect _) (triple_write_other balanceOf_ledgerOf stash _)

theorem keepsTotal_txBondExtra (hM : M ≤ U128.max) (stash : AccountId) (amount : Balance) :
    KeepsTotal M (Staking.txBondExtra stash amount) := by
  refine Triple.bind (triple_adapt (triple_read_other ledgerOf stash) _) fun ledger => ?_
  by_cases hledger : ledger = default
  · simp only [hledger, ↓reduceIte]; exact Triple.fail _
  simp only [hledger, ↓reduceIte]
  refine triple_reserve hM stash amount ?_
  refine Triple.bind (Q := fun _ d => totalMoney d = M) ?_ fun value =>
    triple_expect (moneySafe_expect _) (triple_write_other balanceOf_ledgerOf stash _)
  refine (triple_orPanic fun _ _ why h => ?_).post fun _ _ hd => hd.2
  -- The sum of the ledger's value may overflow, but it is no balance.
  unfold U128.addAssign at h
  split at h
  · cases h
  · cases h
    simp [MoneySafe, Panic.IsMoneyOverflow]

theorem keepsTotal_txUnbond (hM : M ≤ U128.max) (stash : AccountId) (amount : Balance) :
    KeepsTotal M (Staking.txUnbond stash amount) := by
  refine Triple.bind (triple_adapt (triple_read_other ledgerOf stash) _) fun ledger => ?_
  by_cases hledger : ledger = default
  · simp only [hledger, ↓reduceIte]; exact Triple.fail _
  by_cases hvalue : ledger.value.toNat < amount.toNat
  · simp only [hledger, hvalue, ↓reduceIte]; exact Triple.fail _
  simp only [hledger, hvalue, ↓reduceIte]
  refine Triple.bind (Q := fun _ d => totalMoney d = M) ?_ fun value => ?_
  · refine (triple_orPanic fun _ _ why h => ?_).post fun _ _ hd => hd.2
    split at h
    · cases h
    · cases h; exact moneySafe_expect _
  refine Triple.bind (triple_expect (moneySafe_expect _)
    (triple_write_other balanceOf_ledgerOf stash _)) fun _ => triple_adapt ?_ _
  refine Triple.bind (triple_read_balance stash) fun old => ?_
  refine Triple.bind (Q := fun new d => new.worth = old.worth ∧ balance d stash = old ∧
    totalMoney d = M) ?_ fun new => (triple_write_balance stash new).pre ?_
  · intro d ⟨hold, hd⟩
    have hworth : old.worth < 2 ^ 128 := by
      have := worth_le_totalMoney d stash
      simp only [U128.max] at hM
      rw [hold] at this
      omega
    rcases old.unreserve_cases amount hworth with ⟨why, h⟩ | ⟨new, h, hnew⟩
    · simp only [h]; exact moneySafe_expect _
    · simp only [h]; exact ⟨hnew, hold, hd⟩
  · intro d ⟨hnew, hold, hd⟩ d' hd'
    rw [hold, hnew] at hd'
    omega

theorem keepsTotal_txSetController (stash ctrl : AccountId) :
    KeepsTotal M (Staking.txSetController stash ctrl) := by
  refine Triple.bind (triple_adapt (triple_read_other ledgerOf stash) _) fun ledger => ?_
  by_cases hledger : ledger = default
  · simp only [hledger, ↓reduceIte]; exact Triple.fail _
  by_cases hctrl : ledger.controller = ctrl
  · simp only [hledger, hctrl, ↓reduceIte]; exact Triple.done fun _ hd => hd
  simp only [hledger, hctrl, ↓reduceIte]
  refine Triple.bind (triple_adapt (triple_write_other balanceOf_bonded _ _) _) fun _ => ?_
  refine Triple.bind (triple_adapt (triple_write_other balanceOf_bonded ctrl _) _) fun _ => ?_
  exact triple_expect (moneySafe_expect _) (triple_write_other balanceOf_ledgerOf stash _)

theorem keepsTotal_bondedLedger (ctrl : AccountId) : KeepsTotal M (Staking.bondedLedger ctrl) := by
  refine Triple.bind (triple_adapt (triple_read_other bonded ctrl) _) fun stash => ?_
  by_cases hstash : stash = default
  · simp only [hstash, ↓reduceIte]; exact Triple.fail _
  simp only [hstash, ↓reduceIte]
  refine Triple.bind (triple_adapt (triple_read_other ledgerOf stash) _) fun ledger => ?_
  by_cases hledger : ledger = default
  · simp only [hledger, ↓reduceIte]
    intro d _
    change MoneySafe (.message "Ledger must exist when Bonded exists.")
    simp [MoneySafe, Panic.IsMoneyOverflow]
  · simp only [hledger, ↓reduceIte]
    exact Triple.done fun _ hd => hd

theorem keepsTotal_writeLedger (stash : AccountId) (ledger : StakingLedger) :
    KeepsTotal M (expect "Must be owned." (ledgerOf.write stash ledger)) :=
  triple_expect (moneySafe_expect _) (triple_write_other balanceOf_ledgerOf stash ledger)

/-- **Every call keeps the total of the balances**, and overflows no balance. -/
theorem keepsTotal_dispatch (hM : M ≤ U128.max) (origin : AccountId) (call : OuterCall) :
    KeepsTotal M (call.dispatch origin) := by
  cases call with
  | balances call =>
    cases call with
    | transfer dest value => exact keepsTotal_transfer hM origin dest value
  | staking call =>
    cases call with
    | txBond amount controller => exact keepsTotal_txBond hM origin controller amount
    | txBondExtra amount => exact keepsTotal_txBondExtra hM origin amount
    | txUnbond amount => exact keepsTotal_txUnbond hM origin amount
    | txSetController ctrl => exact keepsTotal_txSetController origin ctrl
    | txValidate =>
      exact Triple.bind (keepsTotal_bondedLedger origin) fun _ => keepsTotal_writeLedger _ _
    | txNominate targets =>
      exact Triple.bind (keepsTotal_bondedLedger origin) fun _ =>
        Triple.bind (triple_adapt (triple_write_other balanceOf_nominations _ _) _) fun _ =>
          keepsTotal_writeLedger _ _
    | txChill =>
      refine Triple.bind (keepsTotal_bondedLedger origin) fun (stash, ledger) => ?_
      by_cases hrole : ledger.role = .nominator
      · simp only [hrole, ↓reduceIte]
        exact Triple.bind (triple_adapt (triple_write_other balanceOf_nominations _ _) _) fun _ =>
          keepsTotal_writeLedger _ _
      · simp only [hrole, ↓reduceIte]
        exact keepsTotal_writeLedger _ _

end Calls

/-! ## Sequences of dispatches -/

/-- One dispatch, through either runtime, by whatever worker. -/
structure AnyDispatch where
  via : Option (HashOrder × ThreadId)
  call : OuterCall
  origin : AccountId

/-- The state after a dispatch, and its result. -/
def AnyDispatch.apply (x : AnyDispatch) (state : StateMap) :
    Except Panic (RuntimeDispatchResult × StateMap) :=
  match x.via with
  | some (order, id) =>
    match ConcurrentRuntime.dispatch order (.new id) state x.call x.origin with
    | .ok (result, _, state') => .ok (result, state')
    | .error why => .error why
  | none => SequentialRuntime.dispatch state x.call x.origin

/-- One dispatch after the other, none panicking. -/
def AnyDispatch.applyAll : List AnyDispatch → StateMap → Except Panic StateMap
  | [], state => .ok state
  | x :: xs, state =>
    match x.apply state with
    | .ok (_, state') => applyAll xs state'
    | .error why => .error why

/-- What the body of a call does to the total. -/
theorem totalMoney_of_run {call : OuterCall} {origin : AccountId} {d d' : Data}
    {r : Except DispatchError Unit} (hd : totalMoney d ≤ U128.max)
    (h : (call.dispatch origin).run.run d = .ok (r, d')) : totalMoney d' = totalMoney d := by
  cases r with
  | ok u => exact (keepsTotal_dispatch hd origin call).of_run rfl h
  | error e => rw [(OuterCall.unchanged_of_run h).1]

theorem AnyDispatch.apply_cases (x : AnyDispatch) (state : StateMap)
    (h : totalMoney state.data ≤ U128.max) :
    match x.apply state with
    | .ok (_, state') => totalMoney state'.data = totalMoney state.data
    | .error why => ¬ why.IsMoneyOverflow := by
  obtain ⟨via, call, origin⟩ := x
  match via with
  | some (order, id) =>
    have hcases := ConcurrentRuntime.dispatch_cases order id call origin state
    dsimp only [apply]
    generalize ConcurrentRuntime.dispatch order (.new id) state call origin = outcome at hcases
    match outcome, hcases with
    | .ok (result, runtime, state'), ⟨_, hend⟩ =>
      rcases hend with ⟨r, hrun, -⟩ | ⟨-, hdata, -⟩
      · exact totalMoney_of_run h hrun
      · exact congrArg totalMoney hdata
    | .error why, hend =>
      rcases hend with hrun | ⟨-, hexpect⟩
      · exact (keepsTotal_dispatch h origin call).of_fault rfl hrun
      · exact hexpect.not_isMoneyOverflow
  | none =>
    dsimp only [apply]
    cases hrun : (call.dispatch origin).run.run state.data with
    | error why =>
      rw [SequentialRuntime.dispatch_of_error hrun]
      exact (keepsTotal_dispatch h origin call).of_fault rfl hrun
    | ok out =>
      obtain ⟨r, d⟩ := out
      obtain ⟨state', hdispatch, hdata, -⟩ := SequentialRuntime.dispatch_of_ok hrun
      rw [hdispatch, ← totalMoney_of_run h hrun, ← hdata]

/-- **Money is conserved and never overflows.**  From a state whose total fits
in a `u128`, a sequence of dispatches by anyone through either runtime, none
panicking, leaves the total as it was; and whatever is dispatched next, no
addition or subtraction on a balance overflows. -/
theorem money_conserved (xs : List AnyDispatch) (state state' : StateMap)
    (h : totalMoney state.data ≤ U128.max) (hrun : AnyDispatch.applyAll xs state = .ok state') :
    totalMoney state'.data = totalMoney state.data ∧
      ∀ (x : AnyDispatch) (why : Panic), x.apply state' = .error why → ¬ why.IsMoneyOverflow := by
  induction xs generalizing state with
  | nil =>
    obtain rfl := Except.ok.inj hrun
    refine ⟨rfl, fun x why hx => ?_⟩
    have := x.apply_cases _ h
    rwa [hx] at this
  | cons x xs ih =>
    rw [AnyDispatch.applyAll] at hrun
    have hcases := x.apply_cases state h
    cases hx : x.apply state with
    | error why => rw [hx] at hrun; cases hrun
    | ok out =>
      rw [hx] at hrun hcases
      have htotal : totalMoney out.2.data = totalMoney state.data := hcases
      obtain ⟨hrest, hnext⟩ := ih out.2 (htotal ▸ h) hrun
      exact ⟨hrest.trans htotal, hnext⟩

end

section Witness
open Testing

/-- Alice holds ten, and nobody else anything. -/
def endowedState : StateMap :=
  (∅ : StateMap).insert (balanceOf.keyFor alice) ⟨leBytes 16 10 ++ leBytes 16 0, none⟩

theorem totalMoney_endowedState : totalMoney endowedState.data = 10 := by
  have hempty : totalMoney (fun _ => default : Data) = 0 := by
    have hb : ∀ a, balance (fun _ => default : Data) a = ⟨0, 0⟩ := fun a => rfl
    simp [totalMoney, hb, AccountBalance.worth]
  have hput := totalMoney_put (fun _ => default : Data) alice (b := ⟨10, 0⟩) rfl
  have hb : balance (fun _ => default : Data) alice = ⟨0, 0⟩ := rfl
  rw [hempty, hb] at hput
  simpa [endowedState, StorageMap.put, AccountBalance.worth] using hput

/-- Alice pays bob directly, and a worker fails to pay on behalf of dave. -/
theorem money_conserved_payments :
    ∃ state', AnyDispatch.applyAll
        [⟨none, .balances (.transfer bob 4), alice⟩,
          ⟨some (.arbitrary, 1), .balances (.transfer alice 5), dave⟩] endowedState = .ok state' ∧
      totalMoney state'.data = 10 := by
  have hok : (AnyDispatch.applyAll
      [⟨none, .balances (.transfer bob 4), alice⟩,
        ⟨some (.arbitrary, 1), .balances (.transfer alice 5), dave⟩] endowedState).isOk = true := by
    decide +kernel
  match hrun : AnyDispatch.applyAll
      [⟨none, .balances (.transfer bob 4), alice⟩,
        ⟨some (.arbitrary, 1), .balances (.transfer alice 5), dave⟩] endowedState with
  | .ok state' =>
    refine ⟨state', rfl, ?_⟩
    rw [← totalMoney_endowedState]
    exact (money_conserved _ endowedState state'
      (by rw [totalMoney_endowedState]; decide) hrun).1
  | .error why => rw [hrun] at hok; cases hok

end Witness
end SonicChain
