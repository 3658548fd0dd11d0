import SonicChain.Accounts
import SonicChain.AuthoredBlock

/-! # Transfers, one after the other

What a list of transfers does to the balances when every account has what it sends
(`Funded`): none fails, in whatever order they come, and each account ends with
what it had, less what it has sent and with what was sent to it (`Funded.run`).
-/

namespace SonicChain
open StoreProgram Accounts
variable [Ed25519]

namespace Transaction

def IsTransfer (tx : Transaction) : Prop :=
  ∃ dest value, tx.function = .balances (.transfer dest value)

/-- What the transaction takes from the account. -/
def sent (tx : Transaction) (a : AccountId) : Nat :=
  match tx.function with
  | .balances (.transfer _ value) => if tx.signature.1 = a then value.toNat else 0
  | .staking _ => 0

/-- What the transaction gives to the account. -/
def received (tx : Transaction) (a : AccountId) : Nat :=
  match tx.function with
  | .balances (.transfer dest value) => if dest = a then value.toNat else 0
  | .staking _ => 0

end Transaction

/-- The sum of what the account sends. -/
def outgoing (txs : List Transaction) (a : AccountId) : Nat := (txs.map (·.sent a)).sum

/-- The sum of what is sent to the account. -/
def incoming (txs : List Transaction) (a : AccountId) : Nat := (txs.map (·.received a)).sum

/-- The transactions are transfers, each account has what it sends, and all the money
fits in a `u128`. -/
structure Funded (txs : List Transaction) (d : Data) : Prop where
  transfers : ∀ tx ∈ txs, tx.IsTransfer
  enough : ∀ a, outgoing txs a ≤ (balance d a).free.toNat
  fits : totalMoney d ≤ U128.max

/-! ## The order does not matter -/

section
variable {txs txs' : List Transaction} {d : Data}

theorem outgoing_perm (h : List.Perm (txs.map Transaction.content) (txs'.map Transaction.content)) :
    outgoing txs = outgoing txs' := by
  funext a
  have hof : (fun tx : Transaction => tx.sent a) = (fun c : TransactionId × OuterCall × AccountId ×
      Ed25519.Signature => Transaction.sent ⟨c.1, .notExecuted, .initial, c.2.1, c.2.2⟩ a) ∘
        Transaction.content := rfl
  rw [outgoing, outgoing, hof, ← List.map_map, ← List.map_map]
  exact (h.map _).sum_eq

theorem incoming_perm (h : List.Perm (txs.map Transaction.content) (txs'.map Transaction.content)) :
    incoming txs = incoming txs' := by
  funext a
  have hof : (fun tx : Transaction => tx.received a) = (fun c : TransactionId × OuterCall ×
      AccountId × Ed25519.Signature => Transaction.received ⟨c.1, .notExecuted, .initial, c.2.1, c.2.2⟩ a) ∘
        Transaction.content := rfl
  rw [incoming, incoming, hof, ← List.map_map, ← List.map_map]
  exact (h.map _).sum_eq

theorem Transaction.IsTransfer.of_content {tx tx' : Transaction} (h : tx.IsTransfer)
    (hcontent : tx'.content = tx.content) : tx'.IsTransfer := by
  obtain ⟨dest, value, hfunction⟩ := h
  have hsame : tx'.function = tx.function := congrArg (fun c => c.2.1) hcontent
  exact ⟨dest, value, hsame.trans hfunction⟩

theorem Funded.perm (h : Funded txs d)
    (hperm : List.Perm (txs'.map Transaction.content) (txs.map Transaction.content)) :
    Funded txs' d := by
  refine ⟨fun tx htx => ?_, fun a => ?_, h.fits⟩
  · obtain ⟨t, ht, hcontent⟩ := List.mem_map.mp (hperm.subset (List.mem_map_of_mem htx))
    exact (h.transfers t ht).of_content hcontent.symm
  · rw [outgoing_perm hperm]
    exact h.enough a

end

/-! ## One transfer -/

section
variable {origin dest : AccountId} {value : Balance} {d d' : Data} {e : DispatchError} {why : Panic}

/-- A transfer changes two balances; a transfer to oneself leaves one as it was. -/
theorem Effect.of_transfer {s s' : Accounts}
    (h : Effect origin s (.balances (.transfer dest value)) s') (a : AccountId) :
    (s'.balances a).free.toNat + (if origin = a then value.toNat else 0) =
        (s.balances a).free.toNat + (if dest = a then value.toNat else 0) ∧
      (s'.balances a).reserved = (s.balances a).reserved := by
  cases h with
  | @transfer _ _ remaining free hremaining hfree =>
    obtain ⟨hle, hremaining⟩ := U128.of_checkedSub_eq_some hremaining
    have htaken : ∀ c, ((s.setBalance origin { s.balances origin with free := remaining }).balances
          c).free.toNat + (if origin = c then value.toNat else 0) = (s.balances c).free.toNat ∧
        ((s.setBalance origin { s.balances origin with free := remaining }).balances c).reserved =
          (s.balances c).reserved := by
      intro c
      rw [balances_setBalance]
      by_cases hc : c = origin
      · subst hc
        rw [Function.update_self, if_pos rfl]
        refine ⟨?_, rfl⟩
        change remaining.toNat + value.toNat = _
        omega
      · rw [Function.update_of_ne hc, if_neg (Ne.symm hc)]
        exact ⟨rfl, rfl⟩
    generalize s.setBalance origin { s.balances origin with free := remaining } = middle at *
    obtain ⟨hlt, rfl⟩ := U128.of_addAssign_ok hfree
    rw [balances_setBalance]
    obtain ⟨hfree, hreserved⟩ := htaken a
    by_cases ha : a = dest
    · subst ha
      rw [Function.update_self, if_pos rfl]
      refine ⟨?_, hreserved⟩
      change ((middle.balances a).free + value).toNat + _ = _
      rw [U128.toNat_add_of_lt hlt]
      omega
    · rw [Function.update_of_ne ha, if_neg (Ne.symm ha)]
      exact ⟨by omega, hreserved⟩

/-- A transfer fails only for want of funds. -/
theorem Balances.short_of_run (h : (transfer origin dest value).run.run d = .ok (.error e, d')) :
    (balance d origin).free.toNat < value.toNat := by
  have hcall : ((OuterCall.balances (.transfer dest value)).dispatch origin).run.run d =
      .ok (.error e, d') := h
  have hlogic := OuterCall.isLogic_of_run hcall
  rcases of_bindT_error h with hread | ⟨old, d₁, hread, hrest⟩
  · exact absurd hlogic (never_orForward.not_bad hread)
  · obtain ⟨hget, rfl⟩ := StorageMap.of_read_ok (of_adapt_ok hread)
    obtain rfl := get_eq_ok hget
    split at hrest
    · -- With the funds checked, nothing fails any more.
      rename_i remaining hremaining
      have hnever : Never DispatchError.IsLogic (do
          expect "Origin's balance key must be owned by the current thread."
            (balanceOf.write origin { balance d origin with free := remaining })
          orOrphan (balanceOf.mutate dest fun old => do
            return { old with free := ← U128.addAssign "free" old.free value }) : Dispatch Unit).run :=
        Never.bind (never_expect _) fun _ => never_orOrphan
      exact absurd hlogic (hnever.not_bad hrest)
    · rename_i hnone
      by_contra hle
      rw [U128.checkedSub_of_le (by omega)] at hnone
      cases hnone

end

/-! ## Several transfers -/

section
variable {tx : Transaction} {txs : List Transaction} {d d' : Data}
  {result : Except DispatchError Unit} {why : Panic}

/-- The balances after some transactions, by what has been sent. -/
def Settles (txs : List Transaction) (d d' : Data) : Prop :=
  ∀ a, (balance d' a).free.toNat + outgoing txs a = (balance d a).free.toNat + incoming txs a ∧
    (balance d' a).reserved = (balance d a).reserved

theorem outgoing_cons (a : AccountId) : outgoing (tx :: txs) a = tx.sent a + outgoing txs a := rfl

theorem incoming_cons (a : AccountId) : incoming (tx :: txs) a = tx.received a + incoming txs a := rfl

theorem Settles.cons {d₁ : Data} (h₁ : Settles [tx] d d₁) (h : Settles txs d₁ d') :
    Settles (tx :: txs) d d' := by
  intro a
  obtain ⟨hfree₁, hreserved₁⟩ := h₁ a
  obtain ⟨hfree, hreserved⟩ := h a
  rw [outgoing_cons, incoming_cons] at hfree₁ ⊢
  simp only [outgoing, incoming, List.map_nil, List.sum_nil] at hfree₁
  exact ⟨by omega, hreserved.trans hreserved₁⟩

/-- Transfers do not panic while the money fits. -/
theorem Transaction.IsTransfer.run_ne_error (h : tx.IsTransfer) (hfits : totalMoney d ≤ U128.max) :
    tx.code.run d ≠ .error why := by
  obtain ⟨dest, value, hfunction⟩ := h
  intro hrun
  rw [Transaction.code, hfunction] at hrun
  exact (keepsTotal_transfer hfits tx.signature.1 dest value).of_fault rfl hrun
    (Balances.isMoneyOverflow_transfer hrun)

/-- **A funded transfer is executed**, and leaves enough for the others. -/
theorem Funded.step (h : Funded (tx :: txs) d) (hrun : tx.code.run d = .ok (result, d')) :
    result = .ok () ∧ Settles [tx] d d' ∧ Funded txs d' := by
  obtain ⟨dest, value, hfunction⟩ := h.transfers tx (List.mem_cons_self ..)
  have hcode : (tx.function.dispatch tx.signature.1).run.run d = .ok (result, d') := hrun
  have htotal := totalMoney_of_run h.fits hcode
  rw [hfunction] at hcode
  cases result with
  | error e =>
    have hshort := Balances.short_of_run hcode
    have henough := h.enough tx.signature.1
    rw [outgoing_cons, Transaction.sent, hfunction] at henough
    simp only [↓reduceIte] at henough
    omega
  | ok u =>
    have heffect := (OuterCall.effect_of_run hcode).of_transfer
    have hsettles : Settles [tx] d d' := by
      intro a
      obtain ⟨hfree, hreserved⟩ := heffect a
      refine ⟨?_, hreserved⟩
      rw [outgoing_cons, incoming_cons, Transaction.sent, Transaction.received, hfunction]
      exact hfree
    refine ⟨rfl, hsettles, fun t ht => h.transfers t (List.mem_cons_of_mem _ ht), fun a => ?_,
      htotal ▸ h.fits⟩
    have henough := h.enough a
    have hfree := (hsettles a).1
    rw [outgoing_cons] at henough hfree
    simp only [outgoing, List.map_nil, List.sum_nil] at hfree
    rw [outgoing] at henough ⊢
    omega

/-- **Funded transfers are all executed.** -/
theorem Funded.run (h : Funded txs d) (hrun : runAll (txs.map Transaction.code) d = .ok d') :
    Settles txs d d' := by
  induction txs generalizing d with
  | nil =>
    obtain rfl := Except.ok.inj hrun
    exact fun a => ⟨rfl, rfl⟩
  | cons tx txs ih =>
    rw [List.map_cons, runAll] at hrun
    cases htx : tx.code.run d with
    | error why => rw [htx] at hrun; cases hrun
    | ok out =>
      obtain ⟨result, d₁⟩ := out
      rw [htx] at hrun
      obtain ⟨-, hfirst, hrest⟩ := h.step htx
      exact hfirst.cons (ih hrest hrun)

/-- Whatever is executed keeps the total. -/
theorem totalMoney_of_runAll (hfits : totalMoney d ≤ U128.max)
    (hrun : runAll (txs.map Transaction.code) d = .ok d') : totalMoney d' = totalMoney d := by
  induction txs generalizing d with
  | nil =>
    obtain rfl := Except.ok.inj hrun
    rfl
  | cons tx txs ih =>
    rw [List.map_cons, runAll] at hrun
    cases htx : tx.code.run d with
    | error why => rw [htx] at hrun; cases hrun
    | ok out =>
      obtain ⟨result, d₁⟩ := out
      rw [htx] at hrun
      have hcode : (tx.function.dispatch tx.signature.1).run.run d = .ok (result, d₁) := htx
      have hsame := totalMoney_of_run hfits hcode
      exact (ih (hsame ▸ hfits) hrun).trans hsame

end
end SonicChain
