import SonicChain.Accounts

/-! # Ledgers, reserves and bonds over whole runs

What three relations between the storage maps become of when anybody dispatches
anything: the value of a ledger is the reserve of its stash (`InStep`), the
controller of a bonded stash is bonded to it (`Paired`), and who is bonded is
bonded to a stash with a ledger (`Backed`).  Each is derived from the effects of
the calls.
-/

namespace SonicChain
open StoreProgram Accounts

namespace AccountBalance
variable {b b' : AccountBalance} {amount : Balance}

theorem of_reserve (h : b.reserve amount = .ok (.ok b')) :
    b.reserved.toNat + amount.toNat < 2 ^ 128 ∧ b' = ⟨b.free - amount, b.reserved + amount⟩ := by
  unfold reserve at h
  split at h
  · rename_i hspend
    have hfree := U128.subAssign_of_le "free" (of_decide_eq_true hspend)
    by_cases hlt : b.reserved.toNat + amount.toNat < 2 ^ 128
    · rw [hfree, U128.addAssign_of_lt _ hlt] at h
      exact ⟨hlt, (Except.ok.inj (Except.ok.inj h)).symm⟩
    · rw [hfree, U128.addAssign, if_neg hlt] at h
      cases h
  · cases h

theorem canSpend_of_reserve (h : b.reserve amount = .ok (.ok b')) : b.canSpend amount = true := by
  by_contra hspend
  rw [reserve, if_neg hspend] at h
  cases h

theorem of_unreserve (h : b.unreserve amount = .ok (.ok b')) :
    amount.toNat ≤ b.reserved.toNat ∧ b' = ⟨b.free + amount, b.reserved - amount⟩ := by
  unfold unreserve at h
  split at h
  · rename_i henough
    have hreserved := U128.subAssign_of_le "reserved" henough
    by_cases hlt : b.free.toNat + amount.toNat < 2 ^ 128
    · rw [hreserved, U128.addAssign_of_lt _ hlt] at h
      exact ⟨henough, (Except.ok.inj (Except.ok.inj h)).symm⟩
    · rw [hreserved, U128.addAssign, if_neg hlt] at h
      cases h
  · cases h

theorem lt_of_unreserve_error {text : String} (h : b.unreserve amount = .ok (.error text)) :
    b.reserved.toNat < amount.toNat := by
  unfold unreserve at h
  split at h
  · rename_i henough
    rw [U128.subAssign_of_le "reserved" henough] at h
    cases hfree : U128.addAssign "free" b.free amount with
    | error why => rw [hfree] at h; cases h
    | ok free => rw [hfree] at h; cases h
  · omega

end AccountBalance

section
variable [Ed25519]

/-! ## The ledger and the reserve -/

/-- The value of every account's ledger is its reserved balance. -/
def Accounts.InStep (s : Accounts) : Prop :=
  ∀ a, ∃ l, s.ledgers a = .ok l ∧ l.value = (s.balances a).reserved

namespace Accounts.InStep
variable {s : Accounts} {a : AccountId} {l : StakingLedger} {b : AccountBalance}

theorem value_eq (h : s.InStep) (hl : s.ledgers a = .ok l) : l.value = (s.balances a).reserved := by
  obtain ⟨l', hl', hvalue⟩ := h a
  obtain rfl := Except.ok.inj (hl.symm.trans hl')
  exact hvalue

theorem setBonded {stash : AccountId} (h : s.InStep) : (s.setBonded a stash).InStep := h

theorem setNominations {targets : List AccountId} (h : s.InStep) :
    (s.setNominations a targets).InStep := h

/-- The reserve may change with the ledger. -/
theorem update (h : s.InStep) (hvalue : l.value = b.reserved) :
    ((s.setLedger a l).setBalance a b).InStep := by
  intro c
  by_cases hc : c = a
  · subst hc
    exact ⟨l, by simp, by simpa using hvalue⟩
  · simpa [hc] using h c

theorem setBalance (h : s.InStep) (hb : b.reserved = (s.balances a).reserved) :
    (s.setBalance a b).InStep := by
  intro c
  obtain ⟨l, hl, hvalue⟩ := h c
  refine ⟨l, hl, hvalue.trans ?_⟩
  by_cases hc : c = a
  · subst hc; simp [hb]
  · simp [hc]

theorem setLedger {l' : StakingLedger} (h : s.InStep) (hl : s.ledgers a = .ok l)
    (hvalue : l'.value = l.value) : (s.setLedger a l').InStep := by
  have hkept := h.update (a := a) (b := s.balances a) (hvalue.trans (h.value_eq hl))
  intro c
  by_cases hc : c = a
  · subst hc; simpa using hkept c
  · simpa [hc] using hkept c

/-- **Every call keeps the ledgers in step with the reserves.** -/
theorem effect {origin : AccountId} {call : OuterCall} {s' : Accounts}
    (he : Effect origin s call s') (h : s.InStep) : s'.InStep := by
  cases he with
  | transfer hremaining hfree =>
    refine InStep.setBalance (InStep.setBalance h ?_) ?_ <;> rfl
  | @bond amount controller b hledger hreserve =>
    obtain ⟨-, rfl⟩ := AccountBalance.of_reserve hreserve
    have hzero := h.value_eq hledger
    refine (h.update (a := origin) ?_ :)
    rw [← hzero]
    exact (BitVec.zero_add amount).symm
  | @bondExtra amount value l b hledger hbonded hreserve hvalue =>
    obtain ⟨hlt, rfl⟩ := AccountBalance.of_reserve hreserve
    have hsame := h.value_eq hledger
    rw [← hsame] at hlt
    rw [U128.addAssign_of_lt _ hlt] at hvalue
    obtain rfl := Except.ok.inj hvalue
    refine (h.update (a := origin) ?_ :)
    rw [← hsame]
  | @unbond amount l b hledger hbonded henough hunreserve =>
    obtain ⟨-, rfl⟩ := AccountBalance.of_unreserve hunreserve
    exact h.update (by rw [← h.value_eq hledger])
  | sameController hledger hbonded hctrl => exact h
  | setController hledger hbonded hctrl => exact InStep.setLedger (h.setBonded.setBonded) hledger rfl
  | validate hstash hbonded hledger hl => exact h.setLedger hledger rfl
  | nominate hstash hbonded hledger hl => exact InStep.setLedger h.setNominations hledger rfl
  | chillNominator hstash hbonded hledger hl hrole => exact InStep.setLedger h.setNominations hledger rfl
  | chill hstash hbonded hledger hl hrole => exact h.setLedger hledger rfl

end Accounts.InStep

/-- **Ledgers and reserves stay in step.**  From a state in which they are, in
every state that dispatches by anybody lead to they still are; and whatever is
dispatched next, unbonding finds the bonded value and the reserve it needs, and
bonding more overflows no ledger. -/
theorem ledgers_in_step (xs : List AnyDispatch) (state state' : StateMap)
    (h : (of state.data).InStep) (hrun : AnyDispatch.applyAll xs state = .ok state') :
    (of state'.data).InStep ∧
      ∀ (x : AnyDispatch) (why : Panic), x.apply state' = .error why →
        why ≠ .expect "Must have enough bonded." ∧ why ≠ .expect "Must have enough reserved" ∧
          why ≠ .addOverflow "value" := by
  have hkept := AnyDispatch.applyAll_invariant (fun he => InStep.effect he) hrun h
  refine ⟨hkept, fun x why hx => ?_⟩
  have hfault := x.faults hx
  generalize x.call = call at hfault
  cases hfault with
  | malformed hmalformed =>
    have htext : why = .expect "Encoded public mut be exactly `PUBLIC_KEY_LENGTH`" := by
      rcases hmalformed with ⟨a, ha⟩ | ⟨a, ha⟩
      · exact text_of_malformed (.inl ha)
      · exact text_of_malformed (.inr ha)
    subst htext
    decide
  | money hcall hmoney =>
    obtain ⟨field, rfl | rfl, rfl | rfl⟩ := hmoney <;> decide
  | extra hledger hbonded hreserve hvalue =>
    -- The reserve did not overflow, and the ledger's value is the reserve.
    obtain ⟨hlt, -⟩ := AccountBalance.of_reserve hreserve
    rw [← hkept.value_eq hledger] at hlt
    rw [U128.addAssign_of_lt _ hlt] at hvalue
    cases hvalue
  | reserved hledger henough hunreserve =>
    have hlt := AccountBalance.lt_of_unreserve_error hunreserve
    rw [hkept.value_eq hledger] at henough
    omega
  | missing hcall hstash hbonded hledger => decide
  | tooLong hlen => decide

/-! ## Genesis -/

/-- Balances without reserves, and nothing staked. -/
structure Genesis (state : StateMap) : Prop where
  ledger : ∀ a, ledgerOf.keyFor a ∉ state
  bond : ∀ a, bonded.keyFor a ∉ state
  nomination : ∀ a, nominations.keyFor a ∉ state
  reserved : ∀ a, (balance state.data a).reserved = 0

namespace Genesis
variable {state : StateMap}

theorem ledgers (h : Genesis state) (a : AccountId) :
    (of state.data).ledgers a = .ok default := by
  have hempty : state.data (ledgerOf.keyFor a) = default :=
    StateType.data_of_absent (Finmap.lookup_eq_none.mpr (h.ledger a))
  change ledgerOf.get state.data a = _
  rw [StorageMap.get, hempty]
  rfl

theorem bonds (h : Genesis state) (a : AccountId) : (of state.data).bonds a = .ok default := by
  have hempty : state.data (bonded.keyFor a) = default :=
    StateType.data_of_absent (Finmap.lookup_eq_none.mpr (h.bond a))
  change bonded.get state.data a = _
  rw [StorageMap.get, hempty]
  rfl

theorem inStep (h : Genesis state) : (of state.data).InStep := fun a =>
  ⟨default, h.ledgers a, (h.reserved a).symm⟩

end Genesis

end

section
open Testing

theorem genesis_endowedState : Genesis endowedState := by
  have hother : ∀ {A : Type} {map : StorageMap A} (a : AccountId),
      balanceOf.keyPrefix ≠ map.keyPrefix → map.keyFor a ∉ endowedState := by
    intro A map a hmap hmem
    rcases StateType.mem_insert.mp hmem with hk | hk
    · exact hmap (StorageMap.keyFor_inj hk).1.symm
    · exact absurd hk Finmap.notMem_empty
  refine ⟨fun a => hother a balanceOf_ledgerOf, fun a => hother a balanceOf_bonded,
    fun a => hother a balanceOf_nominations, fun a => ?_⟩
  have hput : (of endowedState.data).balances = Function.update
      (of (fun _ => default)).balances alice ⟨10, 0⟩ := by
    rw [← balances_setBalance, ← of_put_balance (AccountBalance.encode_eq ⟨10, 0⟩), endowedState,
      StateType.data_insert]
    rfl
  change ((of endowedState.data).balances a).reserved = 0
  rw [hput]
  by_cases ha : a = alice
  · rw [ha, Function.update_self]
  · rw [Function.update_of_ne ha]
    rfl

/-- Alice bonds six of her ten, and a worker gives two of them back. -/
theorem ledgers_in_step_bonding :
    ∃ state', AnyDispatch.applyAll
        [⟨none, .staking (.txBond 6 bob), alice⟩,
          ⟨some (.sorted, 1), .staking (.txUnbond 2), alice⟩] endowedState = .ok state' ∧
      (of state'.data).InStep := by
  have hok : (AnyDispatch.applyAll
      [⟨none, .staking (.txBond 6 bob), alice⟩,
        ⟨some (.sorted, 1), .staking (.txUnbond 2), alice⟩] endowedState).isOk = true := by
    decide +kernel
  match hrun : AnyDispatch.applyAll
      [⟨none, .staking (.txBond 6 bob), alice⟩,
        ⟨some (.sorted, 1), .staking (.txUnbond 2), alice⟩] endowedState with
  | .ok state' =>
    exact ⟨state', rfl, (ledgers_in_step _ endowedState state' genesis_endowedState.inStep hrun).1⟩
  | .error why => rw [hrun] at hok; cases hok

end

/-! ## Controllers -/

section
variable [Ed25519]

/-- The controller of every bonded stash is bonded to it. -/
def Accounts.Paired (s : Accounts) : Prop :=
  ∀ a, ∃ l, s.ledgers a = .ok l ∧ (l ≠ default → s.bonds l.controller = .ok a)

/-- The ledger of a bonded stash other than `o` records the controller. -/
def Accounts.ControlsOther (s : Accounts) (o controller : AccountId) : Prop :=
  ∃ a ≠ o, ∃ l, s.ledgers a = .ok l ∧ l ≠ default ∧ l.controller = controller

/-- The call passes its checks, and names the controller of another stash. -/
def OuterCall.TakesController (o : AccountId) (s : Accounts) : OuterCall → Prop
  | .staking (.txBond amount controller) =>
    s.ledgers o = .ok default ∧ (s.balances o).canSpend amount = true ∧ s.ControlsOther o controller
  | .staking (.txSetController ctrl) =>
    (∃ l, s.ledgers o = .ok l ∧ l ≠ default ∧ l.controller ≠ ctrl) ∧ s.ControlsOther o ctrl
  | _ => False

namespace Accounts.Paired
variable {s : Accounts} {a : AccountId} {l : StakingLedger}

theorem bonds_eq (h : s.Paired) (hl : s.ledgers a = .ok l) (hbonded : l ≠ default) :
    s.bonds l.controller = .ok a := by
  obtain ⟨l', hl', hbond⟩ := h a
  obtain rfl := Except.ok.inj (hl.symm.trans hl')
  exact hbond hbonded

theorem setBalance {b : AccountBalance} (h : s.Paired) : (s.setBalance a b).Paired := h

theorem setNominations {targets : List AccountId} (h : s.Paired) :
    (s.setNominations a targets).Paired := h

/-- No two bonded stashes share a controller. -/
theorem unique (h : s.Paired) {a' : AccountId} {l' : StakingLedger} (hl : s.ledgers a = .ok l)
    (hbonded : l ≠ default) (hl' : s.ledgers a' = .ok l') (hbonded' : l' ≠ default)
    (hsame : l.controller = l'.controller) : a = a' := by
  have hbond := h.bonds_eq hl hbonded
  rw [hsame, h.bonds_eq hl' hbonded'] at hbond
  exact (Except.ok.inj hbond).symm

theorem setLedger (h : s.Paired) {l' : StakingLedger} (hl : s.ledgers a = .ok l)
    (hbonded : l ≠ default) (hsame : l'.controller = l.controller) : (s.setLedger a l').Paired := by
  intro c
  by_cases hc : c = a
  · subst hc
    exact ⟨l', by simp, fun _ => by simpa [hsame] using h.bonds_eq hl hbonded⟩
  · simpa [hc] using h c

/-- A controller that no other stash has is bound to `a`. -/
theorem bind (h : s.Paired) (hfree : ¬ s.ControlsOther a l.controller) :
    ((s.setBonded l.controller a).setLedger a l).Paired := by
  intro c
  by_cases hc : c = a
  · subst hc
    exact ⟨l, by simp, fun _ => by simp⟩
  obtain ⟨l', hl', hbond⟩ := h c
  refine ⟨l', by simpa [hc] using hl', fun hbonded => ?_⟩
  have hother : l'.controller ≠ l.controller := fun hsame => hfree ⟨c, hc, l', hl', hbonded, hsame⟩
  simpa [hother] using hbond hbonded

/-- A stash may drop its controller's binding with its ledger. -/
theorem unbind (h : s.Paired) (hl : s.ledgers a = .ok l) (hbonded : l ≠ default) :
    ((s.setBonded l.controller default).setLedger a default).Paired := by
  intro c
  by_cases hc : c = a
  · subst hc
    exact ⟨default, by simp, fun hne => absurd rfl hne⟩
  obtain ⟨l', hl', hbond⟩ := h c
  refine ⟨l', by simpa [hc] using hl', fun hbonded' => ?_⟩
  have hother : l'.controller ≠ l.controller := fun hsame =>
    hc (h.unique hl' hbonded' hl hbonded hsame)
  simpa [hother] using hbond hbonded'

/-- **A call that takes nobody's controller keeps the stashes paired with their
controllers.** -/
theorem effect {origin : AccountId} {call : OuterCall} {s' : Accounts}
    (he : Effect origin s call s') (htakes : ¬ call.TakesController origin s) (h : s.Paired) :
    s'.Paired := by
  cases he with
  | transfer hremaining hfree => exact h
  | @bond amount controller b hledger hreserve =>
    refine Paired.bind (l := { (default : StakingLedger) with controller, value := amount })
      h.setBalance fun hother => ?_
    exact htakes ⟨hledger, AccountBalance.canSpend_of_reserve hreserve, hother⟩
  | bondExtra hledger hbonded hreserve hvalue =>
    exact Paired.setLedger h.setBalance hledger hbonded rfl
  | unbond hledger hbonded henough hunreserve =>
    refine Paired.setBalance (Paired.setLedger h hledger hbonded ?_)
    rfl
  | sameController hledger hbonded hctrl => exact h
  | @setController ctrl l hledger hbonded hctrl =>
    have hfree : ¬ ((s.setBonded l.controller default).setLedger origin default).ControlsOther
        origin ctrl := by
      rintro ⟨a, ha, l', hl', hrest⟩
      exact htakes ⟨⟨l, hledger, hbonded, hctrl⟩, a, ha, l', by simpa [ha] using hl', hrest⟩
    have hbound := (h.unbind hledger hbonded).bind (l := { l with controller := ctrl }) hfree
    -- The ledger is written once only.
    have honce : (((s.setBonded l.controller default).setLedger origin default).setBonded ctrl
        origin).setLedger origin { l with controller := ctrl } =
        ((s.setBonded l.controller default).setBonded ctrl origin).setLedger origin
          { l with controller := ctrl } := Accounts.ext rfl (Function.update_idem ..) rfl rfl
    exact honce ▸ hbound
  | validate hstash hbonded hledger hl => exact h.setLedger hledger hl rfl
  | nominate hstash hbonded hledger hl =>
    exact Paired.setLedger h.setNominations hledger hl rfl
  | chillNominator hstash hbonded hledger hl hrole =>
    exact Paired.setLedger h.setNominations hledger hl rfl
  | chill hstash hbonded hledger hl hrole => exact h.setLedger hledger hl rfl

/-- Nobody else takes over or erases a controller's binding. -/
theorem keeps_bond {origin : AccountId} {call : OuterCall} {s' : Accounts}
    (he : Effect origin s call s') (htakes : ¬ call.TakesController origin s) (h : s.Paired)
    (ha : a ≠ origin) (hl : s.ledgers a = .ok l) (hbonded : l ≠ default) :
    s'.bonds l.controller = .ok a := by
  have hbond := h.bonds_eq hl hbonded
  cases he with
  | @bond amount controller b hledger hreserve =>
    have hother : l.controller ≠ controller := fun hsame =>
      htakes ⟨hledger, AccountBalance.canSpend_of_reserve hreserve, a, ha, l, hl, hbonded, hsame⟩
    simpa [hother] using hbond
  | @setController ctrl l' hledger hbonded' hctrl =>
    have hprev : l.controller ≠ l'.controller := fun hsame =>
      ha (h.unique hl hbonded hledger hbonded' hsame)
    have hother : l.controller ≠ ctrl := fun hsame =>
      htakes ⟨⟨l', hledger, hbonded', hctrl⟩, a, ha, l, hl, hbonded, hsame⟩
    simpa [hprev, hother] using hbond
  | transfer | bondExtra | unbond | sameController | validate | nominate | chillNominator | chill =>
    exact hbond

/-- The call that takes a controller leaves the other stash without it. -/
theorem not_of_takes {origin : AccountId} {call : OuterCall} {s' : Accounts}
    (he : Effect origin s call s') (htakes : call.TakesController origin s) : ¬ s'.Paired := by
  intro h
  cases he with
  | @bond amount controller b hledger hreserve =>
    obtain ⟨-, -, a, ha, l, hl, hbonded, hsame⟩ := htakes
    have hbond := h.bonds_eq (a := a) (l := l) (by simpa [ha] using hl) hbonded
    rw [hsame] at hbond
    have hstash : origin = a := by simpa using hbond
    exact ha hstash.symm
  | @setController ctrl l' hledger hbonded' hctrl =>
    obtain ⟨-, a, ha, l, hl, hbonded, hsame⟩ := htakes
    have hbond := h.bonds_eq (a := a) (l := l) (by simpa [ha] using hl) hbonded
    rw [hsame] at hbond
    have hstash : origin = a := by simpa using hbond
    exact ha hstash.symm
  | sameController hledger hbonded hctrl =>
    obtain ⟨⟨l, hl, -, hne⟩, -⟩ := htakes
    obtain rfl := Except.ok.inj (hl.symm.trans hledger)
    exact hne hctrl
  | transfer | bondExtra | unbond | validate | nominate | chillNominator | chill => exact htakes

end Accounts.Paired

theorem Genesis.paired {state : StateMap} (h : Genesis state) : (of state.data).Paired := fun a =>
  ⟨default, h.ledgers a, fun hne => absurd rfl hne⟩

/-- The dispatch goes through, and takes the controller of another stash. -/
def AnyDispatch.TakesController (x : AnyDispatch) (state : StateMap) : Prop :=
  x.Granted state ∧ x.call.TakesController x.origin (of state.data)

/-- **Bonded stashes keep their controllers as long as nobody takes them.**  From
genesis, dispatches none of which bonds, or sets, a controller that another
bonded stash has lead to states in which the controller of every bonded stash is
bonded to it.  Such a dispatch, where it returns `Ok(Ok)`, breaks this. -/
theorem controllers_paired (xs : List AnyDispatch) (state state' : StateMap)
    (hgenesis : Genesis state)
    (heach : AnyDispatch.Each (fun x s => ¬ x.TakesController s) xs state)
    (hrun : AnyDispatch.applyAll xs state = .ok state') :
    (of state'.data).Paired ∧
      (∀ a a' l l', (of state'.data).ledgers a = .ok l → l ≠ default →
        (of state'.data).ledgers a' = .ok l' → l' ≠ default → l.controller = l'.controller →
          a = a') ∧
      ∀ (x : AnyDispatch) result state'', x.apply state' = .ok (result, state'') →
        (¬ x.TakesController state' → ∀ a l, a ≠ x.origin → (of state'.data).ledgers a = .ok l →
          l ≠ default → (of state''.data).bonds l.controller = .ok a) ∧
        (result = .ok .ok → x.TakesController state' → ¬ (of state''.data).Paired) := by
  have hpaired := AnyDispatch.applyAll_invariant_of_each
    (fun x s s' htakes hgranted he => Paired.effect he fun h => htakes ⟨hgranted, h⟩) heach hrun
    hgenesis.paired
  refine ⟨hpaired, fun a a' l l' hl hbonded hl' hbonded' hsame =>
    hpaired.unique hl hbonded hl' hbonded' hsame, fun x result state'' hx => ?_⟩
  rcases AnyDispatch.of_apply hx with ⟨-, hgranted, he⟩ | ⟨hresult, hdata⟩
  · exact ⟨fun htakes a l ha hl hbonded =>
      hpaired.keeps_bond he (fun h => htakes ⟨hgranted, h⟩) ha hl hbonded,
      fun _ htakes => Paired.not_of_takes he htakes.2⟩
  · refine ⟨fun _ a l _ hl hbonded => ?_, fun hok => absurd hok hresult⟩
    rw [hdata]
    exact hpaired.bonds_eq hl hbonded

end

section
open Testing

/-- Alice bonds with dave as her controller, and then bob with himself. -/
def ownControllers : List AnyDispatch :=
  [⟨none, .staking (.txBond 6 dave), alice⟩, ⟨none, .staking (.txBond 0 bob), bob⟩]

/-- Bob takes nobody's controller: only alice is bonded, and hers is dave. -/
theorem each_ownControllers :
    AnyDispatch.Each (fun x s => ¬ x.TakesController s) ownControllers endowedState := by
  refine .of_cons ?_ fun result s hs => .of_cons ?_ fun _ _ _ => .of_nil
  · rintro ⟨-, -, -, a, -, l, hl, hbonded, -⟩
    rw [genesis_endowedState.ledgers] at hl
    exact hbonded (Except.ok.inj hl).symm
  · rintro ⟨-, -, -, a, -, l, hl, hbonded, hcontroller⟩
    have hdefault : ∀ a, (of endowedState.data).ledgers a = .ok default :=
      genesis_endowedState.ledgers
    rcases AnyDispatch.of_apply hs with ⟨-, -, he⟩ | ⟨-, hdata⟩
    · change Effect alice (of endowedState.data) (.staking (.txBond 6 dave)) _ at he
      generalize of s.data = s' at he hl
      cases he with
      | bond hledger hreserve =>
        by_cases ha : a = alice
        · subst ha
          rw [ledgers_setLedger, Function.update_self] at hl
          obtain rfl := Except.ok.inj hl
          exact absurd hcontroller (by decide)
        · rw [ledgers_setLedger, Function.update_of_ne ha, ledgers_setBonded, ledgers_setBalance,
            hdefault] at hl
          exact hbonded (Except.ok.inj hl).symm
    · rw [hdata, hdefault] at hl
      exact hbonded (Except.ok.inj hl).symm

/-- Both keep their controllers. -/
theorem controllers_paired_bonding :
    ∃ state', AnyDispatch.applyAll ownControllers endowedState = .ok state' ∧
      ledgerOf.get state'.data alice = .ok ⟨6, dave, .chilled⟩ ∧
      ledgerOf.get state'.data bob = .ok ⟨0, bob, .chilled⟩ ∧ (of state'.data).Paired := by
  have hrun : ∃ state', AnyDispatch.applyAll ownControllers endowedState = .ok state' ∧
      ledgerOf.get state'.data alice = .ok ⟨6, dave, .chilled⟩ ∧
      ledgerOf.get state'.data bob = .ok ⟨0, bob, .chilled⟩ := by
    decide +kernel
  obtain ⟨state', hrun, halice, hbob⟩ := hrun
  exact ⟨state', hrun, halice, hbob,
    (controllers_paired _ endowedState state' genesis_endowedState each_ownControllers hrun).1⟩

/-- Alice and bob bond with the same controller, whom alice loses. -/
theorem controllers_not_paired :
    Genesis endowedState ∧ ∃ state', AnyDispatch.applyAll
        [⟨none, .staking (.txBond 6 dave), alice⟩, ⟨none, .staking (.txBond 0 dave), bob⟩]
          endowedState = .ok state' ∧ ¬ (of state'.data).Paired := by
  have hrun : ∃ state', AnyDispatch.applyAll
      [⟨none, .staking (.txBond 6 dave), alice⟩, ⟨none, .staking (.txBond 0 dave), bob⟩]
        endowedState = .ok state' ∧
      ledgerOf.get state'.data alice = .ok ⟨6, dave, .chilled⟩ ∧
      bonded.get state'.data dave = .ok bob := by decide +kernel
  obtain ⟨state', hrun, hledger, hbond⟩ := hrun
  refine ⟨genesis_endowedState, state', hrun, fun h => ?_⟩
  have hpair := h.bonds_eq hledger (by decide +kernel)
  exact absurd (Except.ok.inj (hbond.symm.trans hpair)) (by decide +kernel)

end

/-! ## Ledgers of bonded stashes -/

section
variable [Ed25519]

omit [Ed25519] in
theorem U128.eq_of_sub_eq_zero {a b : U128} (hle : b.toNat ≤ a.toNat) (h : a - b = 0) : a = b := by
  have hzero := congrArg BitVec.toNat h
  rw [U128.toNat_sub_of_le hle] at hzero
  refine BitVec.eq_of_toNat_eq ?_
  simp at hzero
  omega

theorem StakingLedger.eq_default_iff {l : StakingLedger} :
    l = default ↔ l.value = 0 ∧ l.controller = default ∧ l.role = .chilled := by
  obtain ⟨value, controller, role⟩ := l
  exact StakingLedger.mk.injEq .. ▸ Iff.rfl

/-- Who is bonded is bonded to a stash with a ledger, if not to the default account. -/
structure Accounts.Backed (s : Accounts) : Prop where
  ledgers : ∀ a, ∃ l, s.ledgers a = .ok l
  bonds : ∀ c, ∃ stash, s.bonds c = .ok stash ∧ (stash ≠ default → s.ledgers stash ≠ .ok default)

/-- The call passes its checks, and what it leaves in the ledger of a stash that
is not the default account, and that somebody is bonded to, is the default. -/
def OuterCall.VoidsLedger (o : AccountId) (s : Accounts) : OuterCall → Prop
  | .staking (.txBond amount controller) =>
    o ≠ default ∧ s.ledgers o = .ok default ∧ amount = 0 ∧ controller = default
  | .staking (.txUnbond amount) =>
    o ≠ default ∧ (∃ c, s.bonds c = .ok o) ∧
      ∃ l, s.ledgers o = .ok l ∧ l ≠ default ∧ l.value = amount ∧ l.controller = default ∧
        l.role = .chilled
  | .staking (.txSetController ctrl) =>
    o ≠ default ∧ ctrl = default ∧
      ∃ l, s.ledgers o = .ok l ∧ l.controller ≠ default ∧ l.value = 0 ∧ l.role = .chilled
  | .staking .txChill =>
    ∃ stash, stash ≠ default ∧ s.bonds o = .ok stash ∧
      ∃ l, s.ledgers stash = .ok l ∧ l ≠ default ∧ l.value = 0 ∧ l.controller = default
  | _ => False

namespace Accounts.Backed
variable {s : Accounts} {a : AccountId} {l : StakingLedger}

theorem setBalance {b : AccountBalance} (h : s.Backed) : (s.setBalance a b).Backed :=
  ⟨h.ledgers, h.bonds⟩

theorem setNominations {targets : List AccountId} (h : s.Backed) :
    (s.setNominations a targets).Backed := ⟨h.ledgers, h.bonds⟩

theorem ne_default (h : s.Backed) {c : AccountId} (hc : s.bonds c = .ok a) (ha : a ≠ default) :
    s.ledgers a ≠ .ok default := by
  obtain ⟨stash, hstash, hledger⟩ := h.bonds c
  obtain rfl := Except.ok.inj (hc.symm.trans hstash)
  exact hledger ha

/-- A ledger may become the default as long as nobody is bonded to the stash. -/
theorem setLedger (h : s.Backed) (hl : l = default → a ≠ default → ∀ c, s.bonds c ≠ .ok a) :
    (s.setLedger a l).Backed := by
  refine ⟨fun c => ?_, fun c => ?_⟩
  · by_cases hc : c = a
    · subst hc; exact ⟨l, by simp⟩
    · simpa [hc] using h.ledgers c
  · obtain ⟨stash, hstash, hledger⟩ := h.bonds c
    refine ⟨stash, hstash, fun hne => ?_⟩
    by_cases hs : stash = a
    · subst hs
      simpa using fun hdefault => hl hdefault hne c hstash
    · simpa [hs] using hledger hne

theorem setBonded (h : s.Backed) (a : AccountId) {stash : AccountId}
    (hledger : stash ≠ default → s.ledgers stash ≠ .ok default) :
    (s.setBonded a stash).Backed := by
  refine ⟨h.ledgers, fun c => ?_⟩
  by_cases hc : c = a
  · subst hc; exact ⟨stash, by simp, hledger⟩
  · simpa [hc] using h.bonds c

/-- **A call that voids no ledger keeps the bonded stashes in possession of one.** -/
theorem effect {origin : AccountId} {call : OuterCall} {s' : Accounts}
    (he : Effect origin s call s') (hvoids : ¬ call.VoidsLedger origin s) (h : s.Backed) :
    s'.Backed := by
  cases he with
  | transfer hremaining hfree => exact (h.setBalance).setBalance
  | @bond amount controller b hledger hreserve =>
    -- Nobody is bonded to a stash without a ledger.
    have hnone : origin ≠ default → ∀ c, s.bonds c ≠ .ok origin := fun hne c hc =>
      h.ne_default hc hne hledger
    have hbalance : (s.setBalance origin b).Backed := h.setBalance
    have hwritten := hbalance.setLedger (a := origin)
      (l := { (default : StakingLedger) with controller, value := amount }) fun _ => hnone
    refine hwritten.setBonded controller fun hne hdefault => ?_
    rw [ledgers_setLedger, Function.update_self] at hdefault
    obtain ⟨hvalue, hcontroller, -⟩ := StakingLedger.eq_default_iff.mp (Except.ok.inj hdefault)
    exact hvoids ⟨hne, hledger, hvalue, hcontroller⟩
  | @bondExtra amount value l b hledger hbonded hreserve hvalue =>
    refine Backed.setLedger h.setBalance fun hdefault => absurd ?_ hbonded
    obtain ⟨hzero, hcontroller, hrole⟩ := StakingLedger.eq_default_iff.mp hdefault
    refine StakingLedger.eq_default_iff.mpr ⟨?_, hcontroller, hrole⟩
    obtain ⟨hlt, rfl⟩ := U128.of_addAssign_ok hvalue
    have hsum := congrArg BitVec.toNat hzero
    rw [U128.toNat_add_of_lt hlt] at hsum
    exact BitVec.eq_of_toNat_eq (by simp at hsum; simp [hsum])
  | @unbond amount l b hledger hbonded henough hunreserve =>
    refine Backed.setBalance (Backed.setLedger h fun hdefault hne c hc => hvoids ?_)
    obtain ⟨hzero, hcontroller, hrole⟩ := StakingLedger.eq_default_iff.mp hdefault
    exact ⟨hne, ⟨c, hc⟩, l, hledger, hbonded, U128.eq_of_sub_eq_zero henough hzero, hcontroller,
      hrole⟩
  | sameController hledger hbonded hctrl => exact h
  | @setController ctrl l hledger hbonded hctrl =>
    have hne : origin ≠ default → { l with controller := ctrl } ≠ (default : StakingLedger) := by
      intro horigin hdefault
      obtain ⟨hzero, rfl, hrole⟩ := StakingLedger.eq_default_iff.mp hdefault
      exact hvoids ⟨horigin, rfl, l, hledger, hctrl, hzero, hrole⟩
    have hwritten := h.setLedger (a := origin) (l := { l with controller := ctrl })
      fun hdefault horigin => absurd hdefault (hne horigin)
    have hcleared := hwritten.setBonded l.controller fun (hne : (default : AccountId) ≠ default) =>
      absurd rfl hne
    refine hcleared.setBonded ctrl fun horigin hdefault => ?_
    rw [ledgers_setBonded, ledgers_setLedger, Function.update_self] at hdefault
    exact hne horigin (Except.ok.inj hdefault)
  | validate hstash hbonded hledger hl =>
    exact h.setLedger fun hdefault => nomatch (StakingLedger.eq_default_iff.mp hdefault).2.2
  | nominate hstash hbonded hledger hl =>
    exact Backed.setLedger h.setNominations fun hdefault =>
      nomatch (StakingLedger.eq_default_iff.mp hdefault).2.2
  | @chillNominator stash l hstash hbonded hledger hl hrole =>
    refine Backed.setLedger h.setNominations fun hdefault _ c hc => hvoids ?_
    obtain ⟨hzero, hcontroller, -⟩ := StakingLedger.eq_default_iff.mp hdefault
    exact ⟨stash, hbonded, hstash, l, hledger, hl, hzero, hcontroller⟩
  | @chill stash l hstash hbonded hledger hl hrole =>
    refine h.setLedger fun hdefault _ c hc => hvoids ?_
    obtain ⟨hzero, hcontroller, -⟩ := StakingLedger.eq_default_iff.mp hdefault
    exact ⟨stash, hbonded, hstash, l, hledger, hl, hzero, hcontroller⟩

/-- The call that voids a ledger leaves its stash bonded without one. -/
theorem not_of_voids {origin : AccountId} {call : OuterCall} {s' : Accounts}
    (he : Effect origin s call s') (hvoids : call.VoidsLedger origin s) : ¬ s'.Backed := by
  intro h
  cases he with
  | @bond amount controller b hledger hreserve =>
    obtain ⟨hne, -, rfl, rfl⟩ := hvoids
    exact h.ne_default (c := default) (a := origin) (by simp) hne (by simp; rfl)
  | @unbond amount l b hledger hbonded henough hunreserve =>
    obtain ⟨hne, ⟨c, hc⟩, l', hl', -, hvalue, hcontroller, hrole⟩ := hvoids
    obtain rfl := Except.ok.inj (hl'.symm.trans hledger)
    refine h.ne_default (c := c) (a := origin) (by simpa using hc) hne ?_
    rw [ledgers_setBalance, ledgers_setLedger, Function.update_self]
    exact congrArg _ (StakingLedger.eq_default_iff.mpr
      ⟨by rw [hvalue]; exact BitVec.sub_self amount, hcontroller, hrole⟩)
  | @setController ctrl l hledger hbonded hctrl =>
    obtain ⟨hne, rfl, l', hl', -, hvalue, hrole⟩ := hvoids
    obtain rfl := Except.ok.inj (hl'.symm.trans hledger)
    refine h.ne_default (c := default) (a := origin) (by simp) hne ?_
    rw [ledgers_setLedger, Function.update_self]
    exact congrArg _ (StakingLedger.eq_default_iff.mpr ⟨hvalue, rfl, hrole⟩)
  | sameController hledger hbonded hctrl =>
    obtain ⟨-, rfl, l, hl, hne, -⟩ := hvoids
    obtain rfl := Except.ok.inj (hl.symm.trans hledger)
    exact hne hctrl
  | @chillNominator stash l hstash hbonded hledger hl hrole =>
    obtain ⟨stash', hne, hstash', l', hl', -, hvalue, hcontroller⟩ := hvoids
    obtain rfl := Except.ok.inj (hstash'.symm.trans hstash)
    obtain rfl := Except.ok.inj (hl'.symm.trans hledger)
    refine h.ne_default (c := origin) hstash hne ?_
    rw [ledgers_setLedger, Function.update_self]
    exact congrArg _ (StakingLedger.eq_default_iff.mpr ⟨hvalue, hcontroller, rfl⟩)
  | @chill stash l hstash hbonded hledger hl hrole =>
    obtain ⟨stash', hne, hstash', l', hl', -, hvalue, hcontroller⟩ := hvoids
    obtain rfl := Except.ok.inj (hstash'.symm.trans hstash)
    obtain rfl := Except.ok.inj (hl'.symm.trans hledger)
    refine h.ne_default (c := origin) hstash hne ?_
    rw [ledgers_setLedger, Function.update_self]
    exact congrArg _ (StakingLedger.eq_default_iff.mpr ⟨hvalue, hcontroller, rfl⟩)
  | transfer | bondExtra | validate | nominate => exact hvoids

end Accounts.Backed

theorem Genesis.backed {state : StateMap} (h : Genesis state) : (of state.data).Backed :=
  ⟨fun a => ⟨default, h.ledgers a⟩, fun c => ⟨default, h.bonds c, absurd rfl⟩⟩

/-- The calls made by controllers. -/
def OuterCall.ByController : OuterCall → Prop
  | .staking .txValidate | .staking (.txNominate _) | .staking .txChill => True
  | _ => False

/-- The dispatch goes through, and voids the ledger of a stash that somebody is
bonded to. -/
def AnyDispatch.VoidsLedger (x : AnyDispatch) (state : StateMap) : Prop :=
  x.Granted state ∧ x.call.VoidsLedger x.origin (of state.data)

/-- **Who is bonded finds a ledger as long as no ledger is voided.**  From
genesis, dispatches none of which leaves the default in the ledger of a stash
that somebody is bonded to lead to states in which every controller's stash has a
ledger.  No call of a controller panics there, unless it is on more targets than
a vector's encoding counts.  A dispatch that voids a ledger, where it returns
`Ok(Ok)`, breaks this. -/
theorem bonds_backed (xs : List AnyDispatch) (state state' : StateMap) (hgenesis : Genesis state)
    (heach : AnyDispatch.Each (fun x s => ¬ x.VoidsLedger s) xs state)
    (hrun : AnyDispatch.applyAll xs state = .ok state') :
    (of state'.data).Backed ∧
      (∀ (x : AnyDispatch) why, x.call.ByController → x.apply state' = .error why →
        ∃ targets, x.call = .staking (.txNominate targets) ∧ 2 ^ 32 ≤ targets.length) ∧
      ∀ (x : AnyDispatch) state'', x.apply state' = .ok (.ok .ok, state'') →
        x.VoidsLedger state' → ¬ (of state''.data).Backed := by
  have hbacked := AnyDispatch.applyAll_invariant_of_each
    (fun x s s' hvoids hgranted he => Backed.effect he fun h => hvoids ⟨hgranted, h⟩) heach hrun
    hgenesis.backed
  refine ⟨hbacked, fun x why hcall hx => ?_, fun x state'' hx hvoids => ?_⟩
  · have hfault := x.faults hx
    generalize x.call = call at hfault hcall
    cases hfault with
    | malformed hmalformed =>
      rcases hmalformed with ⟨a, ha⟩ | ⟨a, ha⟩
      · obtain ⟨l, hl⟩ := hbacked.ledgers a
        cases ha.symm.trans hl
      · obtain ⟨stash, hstash, -⟩ := hbacked.bonds a
        cases ha.symm.trans hstash
    | @money call why hmoves hmoney =>
      match call with
      | .staking .txValidate => exact hmoves.elim
      | .staking (.txNominate _) => exact hmoves.elim
      | .staking .txChill => exact hmoves.elim
    | extra hledger hbonded hreserve hvalue => exact hcall.elim
    | reserved hledger henough hunreserve => exact hcall.elim
    | missing hcall' hstash hbonded hledger =>
      exact absurd hledger (hbacked.ne_default hstash hbonded)
    | @tooLong targets hlen => exact ⟨targets, rfl, hlen⟩
  · rcases AnyDispatch.of_apply hx with ⟨-, -, he⟩ | ⟨hresult, -⟩
    · exact Backed.not_of_voids he hvoids.2
    · exact absurd rfl hresult

end

section
open Testing

/-- Alice bonds something. -/
theorem bonds_backed_bonding :
    ∃ state', AnyDispatch.applyAll [⟨none, .staking (.txBond 6 bob), alice⟩] endowedState =
        .ok state' ∧ (of state'.data).Backed := by
  have hok : (AnyDispatch.applyAll [⟨none, .staking (.txBond 6 bob), alice⟩] endowedState).isOk =
      true := by
    decide +kernel
  have heach : AnyDispatch.Each (fun x s => ¬ x.VoidsLedger s)
      [⟨none, .staking (.txBond 6 bob), alice⟩] endowedState := by
    refine .of_cons ?_ fun _ _ _ => .of_nil
    rintro ⟨-, -, -, hzero, -⟩
    exact absurd hzero (by decide)
  match hrun : AnyDispatch.applyAll [⟨none, .staking (.txBond 6 bob), alice⟩] endowedState with
  | .ok state' =>
    exact ⟨state', rfl, (bonds_backed _ endowedState state' genesis_endowedState heach hrun).1⟩
  | .error why => rw [hrun] at hok; cases hok

/-- Alice bonds nothing, with the default account as her controller, who then
tries to validate. -/
theorem bonds_not_backed :
    Genesis endowedState ∧ ∃ state',
      AnyDispatch.applyAll [⟨none, .staking (.txBond 0 default), alice⟩] endowedState = .ok state' ∧
      ¬ (of state'.data).Backed ∧
      (⟨none, .staking .txValidate, default⟩ : AnyDispatch).apply state' =
        .error (.message "Ledger must exist when Bonded exists.") := by
  have hrun : ∃ state',
      AnyDispatch.applyAll [⟨none, .staking (.txBond 0 default), alice⟩] endowedState = .ok state' ∧
      ledgerOf.get state'.data alice = .ok default ∧
      bonded.get state'.data default = .ok alice ∧
      ((⟨none, .staking .txValidate, default⟩ : AnyDispatch).apply state').map (fun _ => ()) =
        .error (.message "Ledger must exist when Bonded exists.") := by
    decide +kernel
  obtain ⟨state', hrun, hledger, hbond, hpanic⟩ := hrun
  refine ⟨genesis_endowedState, state', hrun, fun h => ?_, ?_⟩
  · exact h.ne_default hbond (by decide +kernel) hledger
  · cases hx : (⟨none, .staking .txValidate, default⟩ : AnyDispatch).apply state' with
    | ok out => rw [hx] at hpanic; cases hpanic
    | error why => rw [hx] at hpanic; rw [Except.error.inj hpanic]

end
/-! ## Nominations -/

section
variable [Ed25519]

/-- Who has nominations is a nominator. -/
def Accounts.NominatorsOnly (s : Accounts) : Prop :=
  ∀ a, ∃ targets, s.nominees a = .ok targets ∧
    (targets ≠ [] → ∃ l, s.ledgers a = .ok l ∧ l.role = .nominator)

/-- The call passes its checks, and makes a validator of a stash that has nominations. -/
def OuterCall.ValidatesNominator (o : AccountId) (s : Accounts) : OuterCall → Prop
  | .staking .txValidate =>
    ∃ stash, stash ≠ default ∧ s.bonds o = .ok stash ∧
      (∃ l, s.ledgers stash = .ok l ∧ l ≠ default) ∧
      ∃ targets, s.nominees stash = .ok targets ∧ targets ≠ []
  | _ => False

namespace Accounts.NominatorsOnly
variable {s : Accounts} {a : AccountId} {l l' : StakingLedger}

theorem setBalance {b : AccountBalance} (h : s.NominatorsOnly) : (s.setBalance a b).NominatorsOnly :=
  h

theorem setBonded {stash : AccountId} (h : s.NominatorsOnly) :
    (s.setBonded a stash).NominatorsOnly := h

/-- Who is no nominator has no nominations. -/
theorem nominees_eq_nil (h : s.NominatorsOnly) (hl : s.ledgers a = .ok l)
    (hrole : l.role ≠ .nominator) : s.nominees a = .ok [] := by
  obtain ⟨targets, htargets, hnominator⟩ := h a
  by_cases hnil : targets = []
  · rw [htargets, hnil]
  · obtain ⟨l', hl', hrole'⟩ := hnominator hnil
    obtain rfl := Except.ok.inj (hl.symm.trans hl')
    exact absurd hrole' hrole

/-- A nominator stays one, or has no nominations. -/
theorem setLedger (h : s.NominatorsOnly)
    (hl : s.nominees a = .ok [] ∨ l.role = .nominator) : (s.setLedger a l).NominatorsOnly := by
  intro c
  obtain ⟨targets, htargets, hnominator⟩ := h c
  refine ⟨targets, htargets, fun hne => ?_⟩
  by_cases hc : c = a
  · subst hc
    rcases hl with hnil | hrole
    · exact absurd (Except.ok.inj (htargets.symm.trans hnil)) hne
    · exact ⟨l, by simp, hrole⟩
  · obtain ⟨l', hl', hrole⟩ := hnominator hne
    exact ⟨l', by simpa [hc] using hl', hrole⟩

theorem keepRole (h : s.NominatorsOnly) (hl : s.ledgers a = .ok l) (hrole : l'.role = l.role) :
    (s.setLedger a l').NominatorsOnly := by
  refine h.setLedger ?_
  by_cases hnominator : l.role = .nominator
  · exact .inr (hrole.trans hnominator)
  · exact .inl (h.nominees_eq_nil hl hnominator)

/-- The nominations are replaced together with the ledger. -/
theorem setBoth {targets : List AccountId} (h : s.NominatorsOnly)
    (hl : targets = [] ∨ l.role = .nominator) :
    ((s.setNominations a targets).setLedger a l).NominatorsOnly := by
  intro c
  by_cases hc : c = a
  · subst hc
    refine ⟨targets, by simp, fun hne => ⟨l, by simp, hl.resolve_left hne⟩⟩
  · simpa [hc] using h c

/-- **A call that makes no validator of a stash with nominations keeps the
nominations with the nominators.** -/
theorem effect {origin : AccountId} {call : OuterCall} {s' : Accounts}
    (he : Effect origin s call s') (hvalidates : ¬ call.ValidatesNominator origin s)
    (h : s.NominatorsOnly) : s'.NominatorsOnly := by
  cases he with
  | transfer hremaining hfree => exact h
  | @bond amount controller b hledger hreserve =>
    refine keepRole (NominatorsOnly.setBonded (h.setBalance (b := b))) (l := default) hledger ?_
    rfl
  | @bondExtra amount value l b hledger hbonded hreserve hvalue =>
    exact keepRole (h.setBalance (b := b)) hledger rfl
  | @unbond amount l b hledger hbonded henough hunreserve =>
    refine NominatorsOnly.setBalance (keepRole h hledger ?_)
    rfl
  | sameController hledger hbonded hctrl => exact h
  | @setController ctrl l hledger hbonded hctrl =>
    exact keepRole (h.setBonded.setBonded) hledger rfl
  | @validate stash l hstash hbonded hledger hl =>
    obtain ⟨targets, htargets, -⟩ := h stash
    refine h.setLedger (.inl ?_)
    by_contra hne
    refine hvalidates ⟨stash, hbonded, hstash, ⟨l, hledger, hl⟩, targets, htargets, fun hnil => ?_⟩
    exact hne (hnil ▸ htargets)
  | nominate hstash hbonded hledger hl => exact h.setBoth (.inr rfl)
  | chillNominator hstash hbonded hledger hl hrole => exact h.setBoth (.inl rfl)
  | chill hstash hbonded hledger hl hrole =>
    exact h.setLedger (.inl (h.nominees_eq_nil hledger hrole))

/-- The call that makes a validator of such a stash leaves the nominations. -/
theorem not_of_validates {origin : AccountId} {call : OuterCall} {s' : Accounts}
    (he : Effect origin s call s') (hvalidates : call.ValidatesNominator origin s) :
    ¬ s'.NominatorsOnly := by
  intro h
  cases he with
  | @validate stash l hstash hbonded hledger hl =>
    obtain ⟨stash', -, hstash', -, targets, htargets, hne⟩ := hvalidates
    obtain rfl := Except.ok.inj (hstash.symm.trans hstash')
    have hnil := h.nominees_eq_nil (a := stash) (l := { l with role := .validator }) (by simp)
      (by simp)
    exact hne (Except.ok.inj (htargets.symm.trans hnil))
  | transfer | bond | bondExtra | unbond | sameController | setController | nominate
  | chillNominator | chill => exact hvalidates

end Accounts.NominatorsOnly

theorem Genesis.nominatorsOnly {state : StateMap} (h : Genesis state) :
    (of state.data).NominatorsOnly := by
  intro a
  have hempty : state.data (nominations.keyFor a) = default :=
    StateType.data_of_absent (Finmap.lookup_eq_none.mpr (h.nomination a))
  refine ⟨[], ?_, fun hne => absurd rfl hne⟩
  change nominations.get state.data a = _
  rw [StorageMap.get, hempty]
  rfl

/-- The dispatch goes through, and makes a validator of a stash that has nominations. -/
def AnyDispatch.ValidatesNominator (x : AnyDispatch) (state : StateMap) : Prop :=
  x.Granted state ∧ x.call.ValidatesNominator x.origin (of state.data)

/-- **Who has nominations is a nominator, as long as no nominator validates.**  From
genesis, dispatches none of which makes a validator of a stash with nominations lead
to states in which only nominators have any, and there a stash that is chilled has
none.  A dispatch that makes a validator of a stash with nominations, where it
returns `Ok(Ok)`, breaks this. -/
theorem nominations_of_nominators (xs : List AnyDispatch) (state state' : StateMap)
    (hgenesis : Genesis state)
    (heach : AnyDispatch.Each (fun x s => ¬ x.ValidatesNominator s) xs state)
    (hrun : AnyDispatch.applyAll xs state = .ok state') :
    (of state'.data).NominatorsOnly ∧
      (∀ (x : AnyDispatch) state'' stash, x.call = .staking .txChill →
        x.apply state' = .ok (.ok .ok, state'') → bonded.get state'.data x.origin = .ok stash →
        nominations.get state''.data stash = .ok []) ∧
      ∀ (x : AnyDispatch) state'', x.apply state' = .ok (.ok .ok, state'') →
        x.ValidatesNominator state' → ¬ (of state''.data).NominatorsOnly := by
  have hkept := AnyDispatch.applyAll_invariant_of_each
    (fun x s s' hvalidates hgranted he =>
      NominatorsOnly.effect he fun h => hvalidates ⟨hgranted, h⟩) heach hrun hgenesis.nominatorsOnly
  refine ⟨hkept, fun x state'' stash hcall hx hstash => ?_, fun x state'' hx hvalidates => ?_⟩
  · rcases AnyDispatch.of_apply hx with ⟨-, -, he⟩ | ⟨hresult, -⟩
    · change (of state''.data).nominees stash = _
      rw [hcall] at he
      generalize of state''.data = s'' at he
      cases he with
      | chillNominator hstash' hbonded hledger hl hrole =>
        obtain rfl := Except.ok.inj (hstash.symm.trans hstash')
        simp
        rfl
      | chill hstash' hbonded hledger hl hrole =>
        obtain rfl := Except.ok.inj (hstash.symm.trans hstash')
        exact hkept.nominees_eq_nil hledger hrole
    · exact absurd rfl hresult
  · rcases AnyDispatch.of_apply hx with ⟨-, -, he⟩ | ⟨hresult, -⟩
    · exact NominatorsOnly.not_of_validates he hvalidates.2
    · exact absurd rfl hresult

end

section
open Testing

/-- Alice's controller nominates, and then chills: the nominations are gone. -/
theorem nominations_of_nominators_bonding :
    ∃ state' state'', AnyDispatch.applyAll [⟨none, .staking (.txBond 6 bob), alice⟩,
        ⟨none, .staking (.txNominate [dave]), bob⟩] endowedState = .ok state' ∧
      nominations.get state'.data alice = .ok [dave] ∧ (of state'.data).NominatorsOnly ∧
      (⟨none, .staking .txChill, bob⟩ : AnyDispatch).apply state' = .ok (.ok .ok, state'') ∧
      nominations.get state''.data alice = .ok [] := by
  have hrun : ∃ state', AnyDispatch.applyAll [⟨none, .staking (.txBond 6 bob), alice⟩,
      ⟨none, .staking (.txNominate [dave]), bob⟩] endowedState = .ok state' ∧
      nominations.get state'.data alice = .ok [dave] ∧ bonded.get state'.data bob = .ok alice ∧
      ((⟨none, .staking .txChill, bob⟩ : AnyDispatch).apply state').map Prod.fst = .ok (.ok .ok) := by
    decide +kernel
  obtain ⟨state', hrun, hnominations, hbond, hchill⟩ := hrun
  have heach : AnyDispatch.Each (fun x s => ¬ x.ValidatesNominator s)
      [⟨none, .staking (.txBond 6 bob), alice⟩, ⟨none, .staking (.txNominate [dave]), bob⟩]
      endowedState :=
    .of_cons (fun h => h.2) fun _ _ _ => .of_cons (fun h => h.2) fun _ _ _ => .of_nil
  obtain ⟨honly, hchilled, -⟩ :=
    nominations_of_nominators _ endowedState state' genesis_endowedState heach hrun
  match happly : (⟨none, .staking .txChill, bob⟩ : AnyDispatch).apply state' with
  | .ok (result, state'') =>
    rw [happly] at hchill
    obtain rfl : result = .ok .ok := Except.ok.inj hchill
    exact ⟨state', state'', hrun, hnominations, honly, happly, hchilled _ _ _ rfl happly hbond⟩
  | .error why => rw [happly] at hchill; cases hchill

/-- Alice's controller nominates, validates and then chills: the nominations are
still there. -/
theorem nominations_of_chilled :
    Genesis endowedState ∧ ∃ state', AnyDispatch.applyAll
        [⟨none, .staking (.txBond 6 bob), alice⟩, ⟨none, .staking (.txNominate [dave]), bob⟩,
          ⟨none, .staking .txValidate, bob⟩, ⟨none, .staking .txChill, bob⟩] endowedState =
        .ok state' ∧
      nominations.get state'.data alice = .ok [dave] ∧ ¬ (of state'.data).NominatorsOnly := by
  have hrun : ∃ state', AnyDispatch.applyAll
      [⟨none, .staking (.txBond 6 bob), alice⟩, ⟨none, .staking (.txNominate [dave]), bob⟩,
        ⟨none, .staking .txValidate, bob⟩, ⟨none, .staking .txChill, bob⟩] endowedState =
        .ok state' ∧
      nominations.get state'.data alice = .ok [dave] ∧
      ledgerOf.get state'.data alice = .ok ⟨6, bob, .chilled⟩ := by decide +kernel
  obtain ⟨state', hrun, hnominations, hledger⟩ := hrun
  refine ⟨genesis_endowedState, state', hrun, hnominations, fun h => ?_⟩
  have hnil := h.nominees_eq_nil hledger (by decide)
  exact absurd (hnominations.symm.trans hnil) (by simp)

end

end SonicChain
