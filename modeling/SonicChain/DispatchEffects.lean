import SonicChain.RuntimeAgreement

/-! # What a concurrent dispatch does to the state

Whatever it executes, a concurrent runtime changes the state before it commits by
tainting keys that nobody owned (`ConcurrentRuntime.run_tainted`), and caches
writes to keys of its own only.  So a dispatch that is abandoned, refused or
failing, leaves the data as it was, and a commit goes through
(`failed_dispatch_atomic`).
-/

namespace SonicChain
open StoreProgram

/-- The second state is the first with some keys that nobody owned tainted by
`id`. -/
def Tainted (id : ThreadId) (state state' : StateMap) : Prop :=
  ∀ k, state'.lookup k = state.lookup k ∨
    state.taint k = none ∧ state'.lookup k = some ⟨state.data k, some id⟩

namespace Tainted
variable {id : ThreadId} {state state' state'' : StateMap}

theorem refl (state : StateMap) : Tainted id state state := fun _ => .inl rfl

theorem insert {key : Key} (h : state.taint key = none) :
    Tainted id state (state.insert key ⟨state.data key, some id⟩) := by
  intro k
  rw [StateType.lookup_insert]
  by_cases hk : k = key
  · subst hk; exact .inr ⟨h, if_pos rfl⟩
  · exact .inl (if_neg hk)

theorem data_eq (h : Tainted id state state') : state'.data = state.data := by
  funext k
  rcases h k with hk | ⟨-, hk⟩
  · rw [StateType.data, StateType.data, hk]
  · exact StateType.data_of_lookup hk

theorem taint_cases (h : Tainted id state state') (k : Key) :
    state'.taint k = state.taint k ∨ state.taint k = none ∧ state'.taint k = some id := by
  rcases h k with hk | ⟨hnone, hk⟩
  · exact .inl (by rw [StateType.taint, StateType.taint, hk])
  · exact .inr ⟨hnone, StateType.taint_of_lookup hk⟩

theorem trans (h : Tainted id state state') (h' : Tainted id state' state'') :
    Tainted id state state'' := by
  intro k
  rcases h' k with hk' | ⟨hnone, hk'⟩
  · rcases h k with hk | hk
    · exact .inl (hk'.trans hk)
    · exact .inr ⟨hk.1, hk'.trans hk.2⟩
  · have hfree : state.taint k = none := by
      rcases h.taint_cases k with ht | ⟨ht, -⟩
      · exact ht.symm.trans hnone
      · exact ht
    exact .inr ⟨hfree, by rw [hk', h.data_eq]⟩

theorem taint_of_some (h : Tainted id state state') {k : Key} {owner : ThreadId}
    (hk : state.taint k = some owner) : state'.taint k = some owner := by
  rcases h.taint_cases k with ht | ⟨ht, -⟩
  · exact ht.trans hk
  · rw [ht] at hk; cases hk

theorem mem (h : Tainted id state state') {k : Key} (hk : k ∈ state) : k ∈ state' := by
  rcases h k with hk' | ⟨-, hk'⟩
  · rwa [← Finmap.lookup_isSome, hk', Finmap.lookup_isSome]
  · exact Finmap.mem_of_lookup_eq_some hk'

/-- A new entry holds the empty value. -/
theorem of_new (h : Tainted id state state') {k : Key} (hk : k ∈ state') (hnew : k ∉ state) :
    state'.lookup k = some ⟨default, some id⟩ := by
  have habsent : state.lookup k = none := Finmap.lookup_eq_none.mpr hnew
  rcases h k with hk' | ⟨-, hk'⟩
  · exact absurd (hk'.trans habsent) (Finmap.lookup_eq_none.not.mpr (not_not.mpr hk))
  · rw [hk', StateType.data_of_absent habsent]

theorem of_changed (h : Tainted id state state') {k : Key} {owner : ThreadId}
    (hk : state'.taint k = some owner) (hne : state.taint k ≠ some owner) :
    owner = id ∧ state.taint k = none := by
  rcases h.taint_cases k with ht | ⟨hnone, ht⟩
  · exact absurd (ht.symm.trans hk) hne
  · exact ⟨Option.some.inj (hk.symm.trans ht), hnone⟩

end Tainted

namespace ConcurrentRuntime
variable {id : ThreadId} {cache cache' : Cache} {state state' : StateMap}

/-- A read that is granted leaves the reader the owner of the key. -/
theorem read_tainted {key : Key} {outcome : Except ThreadId Value}
    (hc : ∀ k, cache.lookup k ≠ none → Owns id state k)
    (h : read id cache state key = .ok (outcome, state')) :
    Tainted id state state' ∧ ∀ v, outcome = .ok v → Owns id state' key := by
  unfold read at h
  split at h
  · rename_i value hvalue
    obtain ⟨rfl, rfl⟩ := Prod.mk.inj (Except.ok.inj h)
    exact ⟨.refl _, fun _ _ => hc key (by simp [hvalue])⟩
  · rw [TaintState.read_eq, TaintState.atomicRead] at h
    split at h
    · rename_i owner howner
      obtain ⟨rfl, rfl⟩ := Prod.mk.inj (Except.ok.inj h)
      refine ⟨.refl _, fun v hv => ?_⟩
      split at hv
      · rename_i ho; exact ho ▸ howner
      · cases hv
    · rename_i hnone
      obtain ⟨rfl, rfl⟩ := Prod.mk.inj (Except.ok.inj h)
      exact ⟨.insert hnone, fun _ _ => by simp [Owns]⟩

/-- **Code changes the state by tainting unowned keys only, and caches writes to
keys of its own.** -/
theorem run_tainted {A : Type} {code : Storage A} {a : A}
    (hc : ∀ k, cache.lookup k ≠ none → Owns id state k)
    (h : run id code cache state = .ok (a, cache', state')) :
    Tainted id state state' ∧ ∀ k, cache'.lookup k ≠ none → Owns id state' k := by
  induction code generalizing cache state with
  | done b =>
    obtain ⟨-, h⟩ := Prod.mk.inj (Except.ok.inj h)
    obtain ⟨rfl, rfl⟩ := Prod.mk.inj h
    exact ⟨.refl _, hc⟩
  | fault why => cases h
  | read key next ih =>
    rw [run] at h
    cases hread : read id cache state key with
    | error why => rw [hread] at h; cases h
    | ok r =>
      rw [hread] at h
      obtain ⟨htaint, -⟩ := read_tainted hc hread
      obtain ⟨hrest, hc'⟩ := ih r.1 (fun k hk => htaint.taint_of_some (hc k hk)) h
      exact ⟨htaint.trans hrest, hc'⟩
  | write key value next ih =>
    rw [run, write] at h
    cases hread : read id cache state key with
    | error why => rw [hread] at h; cases h
    | ok r =>
      obtain ⟨outcome, state₁⟩ := r
      rw [hread] at h
      obtain ⟨htaint, hgranted⟩ := read_tainted hc hread
      have hc₁ := fun k hk => htaint.taint_of_some (hc k hk)
      cases outcome with
      | error owner =>
        obtain ⟨hrest, hc'⟩ := ih (.error owner) hc₁ h
        exact ⟨htaint.trans hrest, hc'⟩
      | ok old =>
        have hc₂ : ∀ k, (cache.insert key value).lookup k ≠ none → Owns id state₁ k := by
          intro k hk
          by_cases hkey : k = key
          · exact hkey ▸ hgranted old rfl
          · rw [Finmap.lookup_insert_of_ne cache hkey] at hk
            exact hc₁ k hk
        obtain ⟨hrest, hc'⟩ := ih (.ok ()) hc₂ h
        exact ⟨htaint.trans hrest, hc'⟩

variable [Ed25519]

/-- The ways a dispatch may return. -/
theorem of_dispatch {order : HashOrder} {runtime runtime' : ConcurrentRuntime} {call : OuterCall}
    {origin : AccountId} {result : RuntimeDispatchResult}
    (h : dispatch order runtime state call origin = .ok (result, runtime', state')) :
    runtime.cache = ∅ ∧ runtime'.cache = ∅ ∧
      ((∃ e cache, run runtime.id (call.dispatch origin).run ∅ state = .ok (.error e, cache, state') ∧
          result = toRuntimeDispatchResult (.error e)) ∨
        ∃ cache state₁, run runtime.id (call.dispatch origin).run ∅ state =
            .ok (.ok (), cache, state₁) ∧
          commitCache runtime.id (order.entries cache) state₁ = .ok state' ∧ result = .ok .ok) := by
  unfold dispatch at h
  split at h
  · cases h
  · rename_i hcache
    rw [not_not] at hcache
    rw [hcache] at h
    refine ⟨hcache, ?_⟩
    split at h
    · rename_i cache state₁ hrun
      split at h
      · rename_i hcommit
        simp only [Except.ok.injEq, Prod.mk.injEq] at h
        obtain ⟨rfl, rfl, rfl⟩ := h
        exact ⟨rfl, .inr ⟨cache, state₁, hrun, hcommit, rfl⟩⟩
      · cases h
    · rename_i e cache state₁ hrun
      simp only [Except.ok.injEq, Prod.mk.injEq] at h
      obtain ⟨rfl, rfl, rfl⟩ := h
      exact ⟨rfl, .inl ⟨e, cache, hrun, rfl⟩⟩
    · cases h

/-- A dispatch that returns `Ok(Ok)` was refused nothing. -/
theorem not_contended_of_ok {order : HashOrder} {id : ThreadId} {runtime' : ConcurrentRuntime}
    {call : OuterCall} {origin : AccountId}
    (h : dispatch order (new id) state call origin = .ok (.ok .ok, runtime', state')) :
    ¬ Contended id (call.dispatch origin).run state := by
  obtain ⟨-, -, ⟨e, cache, hrun, hresult⟩ | ⟨cache, state₁, hrun, -, -⟩⟩ := of_dispatch h
  · cases e <;> cases hresult
  have hends := run_cases id state (call.failStop_dispatch origin)
  change run id (call.dispatch origin).run ∅ state = _ at hrun
  rw [hrun] at hends
  have htracks := hends.2.resolve_right (by simp)
  have hempty : ∀ k, (∅ : Cache).lookup k ≠ none → Owns id state k := fun k hk =>
    absurd (Finmap.lookup_empty k) hk
  rintro ⟨key, htouched, owner, hne, howner⟩
  have hown : Owns id state₁ key :=
    (htracks.run_of_done (e := state.data) fun _ _ => rfl).2.1 key htouched
  have hkept := (run_tainted hempty hrun).1.taint_of_some howner
  exact hne (Option.some.inj (hkept.symm.trans hown))

end ConcurrentRuntime

section
variable [Ed25519]
open ConcurrentRuntime

/-- **A failed dispatch is atomic.**  Unless it returns `Ok(Ok)`, a dispatch leaves
the data under every key, keeps the taints there are, and sets its own on keys
that nobody owned; the cache is empty again.  If it returns `Ok(Ok)`, then what
has changed is its own.  And when the body has ended in `Ok`, the commit finds
every cached key tainted by the thread. -/
theorem failed_dispatch_atomic (order : HashOrder) (runtime : ConcurrentRuntime)
    (state : StateMap) (call : OuterCall) (origin : AccountId) :
    (∀ result runtime' state', dispatch order runtime state call origin =
        .ok (result, runtime', state') →
      (result ≠ .ok .ok →
        (∀ k, state'.data k = state.data k) ∧ (∀ k, k ∈ state → k ∈ state') ∧
        (∀ k, k ∈ state' → k ∉ state → state'.lookup k = some ⟨default, some runtime.id⟩) ∧
        (∀ k owner, state.taint k = some owner → state'.taint k = some owner) ∧
        (∀ k owner, state'.taint k = some owner → state.taint k ≠ some owner →
          owner = runtime.id ∧ state.taint k = none) ∧
        runtime'.cache = ∅) ∧
      (result = .ok .ok → ∀ k, state'.data k ≠ state.data k → state'.taint k = some runtime.id)) ∧
    ∀ cache state₁, run runtime.id (call.dispatch origin).run ∅ state = .ok (.ok (), cache, state₁) →
      (∀ k, cache.lookup k ≠ none → state₁.taint k = some runtime.id) ∧
      ∃ state', commitCache runtime.id (order.entries cache) state₁ = .ok state' := by
  have hempty : ∀ k, (∅ : Cache).lookup k ≠ none → Owns runtime.id state k :=
    fun k hk => absurd (Finmap.lookup_empty k) hk
  constructor
  · intro result runtime' state' h
    obtain ⟨-, hcache, ⟨e, cache, hrun, rfl⟩ | ⟨cache, state₁, hrun, hcommit, rfl⟩⟩ := of_dispatch h
    · obtain ⟨htainted, -⟩ := run_tainted hempty hrun
      refine ⟨fun _ => ⟨fun k => congrFun htainted.data_eq k, fun _ => htainted.mem,
        fun _ => htainted.of_new, fun _ _ => htainted.taint_of_some, fun _ _ => htainted.of_changed,
        hcache⟩, fun hok => ?_⟩
      cases e <;> cases hok
    · obtain ⟨htainted, hown⟩ := run_tainted hempty hrun
      obtain ⟨state₂, hcommit', htaint, hdata⟩ := commitCache_eq order hown
      obtain rfl := Except.ok.inj (hcommit.symm.trans hcommit')
      refine ⟨fun hne => absurd rfl hne, fun _ k hk => ?_⟩
      rw [htaint]
      refine hown k fun hnone => hk ?_
      rw [hdata, overlay_of_none (c := fun k => cache.lookup k) hnone, htainted.data_eq]
  · intro cache state₁ hrun
    obtain ⟨-, hown⟩ := run_tainted hempty hrun
    obtain ⟨state', hcommit, -, -⟩ := commitCache_eq order hown
    exact ⟨hown, state', hcommit⟩

end

section Witness
open Testing ConcurrentRuntime

/-- Thread 1 pays from alice's balance: to dave, whose balance is thread 2's, in
vain; and to bob. -/
theorem failed_dispatch_atomic_payments :
    (∃ runtime' state', dispatch .arbitrary (.new 1) ownedState (.balances (.transfer dave 4)) alice =
        .ok (.error (.tainted 2 true), runtime', state') ∧
      ∀ k, state'.data k = ownedState.data k) ∧
    ∃ cache state₁, run 1 (OuterCall.dispatch alice (.balances (.transfer bob 4))).run ∅ ownedState =
        .ok (.ok (), cache, state₁) ∧
      ∃ state', commitCache 1 (HashOrder.arbitrary.entries cache) state₁ = .ok state' := by
  constructor
  · have hrefused : ∃ out, dispatch .arbitrary (.new 1) ownedState
        (.balances (.transfer dave 4)) alice = .ok out ∧ out.1 = .error (.tainted 2 true) := by
      decide +kernel
    obtain ⟨⟨result, runtime', state'⟩, hrun, rfl⟩ := hrefused
    exact ⟨runtime', state', hrun, (((failed_dispatch_atomic .arbitrary (.new 1) ownedState
      (.balances (.transfer dave 4)) alice).1 _ _ _ hrun).1 (by simp)).1⟩
  · have hdone : ∃ out, run 1 (OuterCall.dispatch alice (.balances (.transfer bob 4))).run ∅
        ownedState = .ok out ∧ out.1 = .ok () := by
      decide +kernel
    obtain ⟨⟨result, cache, state₁⟩, hrun, rfl⟩ := hdone
    exact ⟨cache, state₁, hrun, ((failed_dispatch_atomic .arbitrary (.new 1) ownedState
      (.balances (.transfer bob 4)) alice).2 cache state₁ hrun).2⟩

end Witness
end SonicChain
