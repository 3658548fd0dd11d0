import SonicChain.StakingInvariants

/-! # What a dispatch leaves alone

Whatever its origin calls, a dispatch takes nothing from another account, and
touches no ledger, nominations or bond but those of the origin, of the stash it
is bonded to, and of the controllers it names or has.
-/

namespace SonicChain
open StoreProgram Accounts

section
variable [Ed25519]

/-- The controller account given in the call. -/
def OuterCall.givenController : OuterCall → Option AccountId
  | .staking (.txBond _ controller) => some controller
  | .staking (.txSetController ctrl) => some ctrl
  | _ => none

namespace Effect
variable {origin : AccountId} {s s' : Accounts} {call : OuterCall}

/-- Other accounts keep their reserves, and may only receive. -/
theorem balances_frame (he : Effect origin s call s') {a : AccountId} (ha : a ≠ origin) :
    (s'.balances a).reserved = (s.balances a).reserved ∧
      (s.balances a).free.toNat ≤ (s'.balances a).free.toNat := by
  have same : s'.balances a = s.balances a → _ := fun h =>
    (⟨by rw [h], by rw [h]⟩ : (s'.balances a).reserved = (s.balances a).reserved ∧
      (s.balances a).free.toNat ≤ (s'.balances a).free.toNat)
  cases he with
  | @transfer dest value remaining free hremaining hfree =>
    by_cases hdest : a = dest
    · subst hdest
      obtain ⟨hlt, rfl⟩ := U128.of_addAssign_ok hfree
      simp only [balances_setBalance, Function.update_self, Function.update_of_ne ha] at hlt ⊢
      exact ⟨trivial, by rw [U128.toNat_add_of_lt hlt]; omega⟩
    · exact same (by simp [ha, hdest])
  | bond | bondExtra | unbond => exact same (by simp [ha])
  | sameController | setController | validate | nominate | chillNominator | chill => exact same rfl

/-- Only the ledgers of the origin, and of the stash it is bonded to, change. -/
theorem ledgers_frame (he : Effect origin s call s') {a : AccountId} (ha : a ≠ origin)
    (hbond : s.bonds origin ≠ .ok a) : s'.ledgers a = s.ledgers a := by
  cases he with
  | transfer | sameController => rfl
  | bond | bondExtra | unbond | setController => simp [ha]
  | @validate stash l hstash | @nominate stash l targets hstash | @chillNominator stash l hstash
  | @chill stash l hstash =>
    have hother : a ≠ stash := fun hsame => hbond (hsame ▸ hstash)
    simp [hother]

/-- Only the nominations of the stash that the origin is bonded to change. -/
theorem nominees_frame (he : Effect origin s call s') {a : AccountId}
    (hbond : s.bonds origin ≠ .ok a) : s'.nominees a = s.nominees a := by
  cases he with
  | transfer | bond | bondExtra | unbond | sameController | setController | validate | chill => rfl
  | @nominate stash l targets hstash | @chillNominator stash l hstash =>
    have hother : a ≠ stash := fun hsame => hbond (hsame ▸ hstash)
    simp [hother]

/-- Only the bonds of the controllers that the call gives and the origin has change. -/
theorem bonds_frame (he : Effect origin s call s') {c : AccountId}
    (hgiven : call.givenController ≠ some c)
    (hrecorded : ∀ l, s.ledgers origin = .ok l → l.controller ≠ c) : s'.bonds c = s.bonds c := by
  cases he with
  | bond hledger hreserve =>
    have hother : c ≠ _ := fun hsame => hgiven (congrArg some hsame.symm)
    simp [hother]
  | setController hledger hbonded hctrl =>
    have hother : c ≠ _ := fun hsame => hgiven (congrArg some hsame.symm)
    simp [hother, (hrecorded _ hledger).symm]
  | transfer | bondExtra | unbond | sameController | validate | nominate | chillNominator | chill =>
    rfl

end Effect

/-- **Nobody changes what is not theirs to change.**  After a dispatch, every
account but its origin has its reserve, and at least its free balance; every
ledger but those of the origin and of the stash it is bonded to is as it was; so
are the nominations of every stash but that one, and the bond of every account
but the controller given in the call and the one recorded in the origin's
ledger. -/
theorem authorization_frame (x : AnyDispatch) (state state' : StateMap)
    (result : RuntimeDispatchResult) (h : x.apply state = .ok (result, state')) :
    (∀ a ≠ x.origin, (balance state'.data a).reserved = (balance state.data a).reserved ∧
      (balance state.data a).free.toNat ≤ (balance state'.data a).free.toNat) ∧
    (∀ s ≠ x.origin, bonded.get state.data x.origin ≠ .ok s →
      ledgerOf.get state'.data s = ledgerOf.get state.data s) ∧
    (∀ s, bonded.get state.data x.origin ≠ .ok s →
      nominations.get state'.data s = nominations.get state.data s) ∧
    (∀ c, x.call.givenController ≠ some c →
      (∀ l, ledgerOf.get state.data x.origin = .ok l → l.controller ≠ c) →
      bonded.get state'.data c = bonded.get state.data c) := by
  rcases AnyDispatch.of_apply h with ⟨-, -, he⟩ | ⟨-, hdata⟩
  · exact ⟨fun a ha => he.balances_frame ha, fun s hs hbond => he.ledgers_frame hs hbond,
      fun s hbond => he.nominees_frame hbond, fun c hgiven hrecorded =>
        he.bonds_frame hgiven hrecorded⟩
  · rw [hdata]
    exact ⟨fun a _ => ⟨rfl, le_refl _⟩, fun _ _ _ => rfl, fun _ _ => rfl, fun _ _ _ => rfl⟩

end

section
open Testing

/-- Alice bonds with bob as her controller: dave's balance and bond are as before. -/
theorem authorization_frame_bonding :
    ∃ state' result, (⟨none, .staking (.txBond 6 bob), alice⟩ : AnyDispatch).apply endowedState =
        .ok (result, state') ∧
      (balance state'.data dave).reserved = (balance endowedState.data dave).reserved ∧
      bonded.get state'.data dave = bonded.get endowedState.data dave := by
  have hok : ((⟨none, .staking (.txBond 6 bob), alice⟩ : AnyDispatch).apply endowedState).isOk =
      true := by
    decide +kernel
  match hrun : (⟨none, .staking (.txBond 6 bob), alice⟩ : AnyDispatch).apply endowedState with
  | .ok (result, state') =>
    obtain ⟨hbalances, -, -, hbonds⟩ := authorization_frame _ endowedState state' result hrun
    refine ⟨state', result, rfl, (hbalances dave (by decide +kernel)).1,
      hbonds dave (by decide +kernel) fun l hl => ?_⟩
    rw [show ledgerOf.get endowedState.data alice = .ok default from
      genesis_endowedState.ledgers alice] at hl
    rw [← Except.ok.inj hl]
    decide +kernel
  | .error why => rw [hrun] at hok; cases hok

end

end SonicChain
