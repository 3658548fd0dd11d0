import SonicChain.Runtimes

/-! # The two runtimes agree

A dispatch through `ConcurrentRuntime` either does what the call's body does
alone on the data, or is refused a key and leaves the data as it is
(`dispatch_cases`).  Where no key is refused, the two runtimes return the same
result and leave the same data (`runtimes_agree`).
-/

namespace SonicChain
open StoreProgram

section
variable [Ed25519]

/-- The failures of a body that is refused nothing are logical ones. -/
theorem OuterCall.isLogic_of_run {call : OuterCall} {origin : AccountId} {d d' : Key → Value}
    {e : DispatchError} (h : (call.dispatch origin).run.run d = .ok (.error e, d')) :
    e.IsLogic := by
  cases e with
  | tainted owner orphan =>
    exact absurd ⟨orphan, rfl⟩ ((call.failStop_dispatch origin).run_not_reports h owner)
  | logicError why => exact ⟨why, rfl⟩

/-- A body that fails leaves the data unchanged and writes no key. -/
theorem OuterCall.unchanged_of_run {call : OuterCall} {origin : AccountId} {d d' : Key → Value}
    {e : DispatchError} (h : (call.dispatch origin).run.run d = .ok (.error e, d')) :
    d' = d ∧ (call.dispatch origin).run.written d = [] :=
  ⟨(call.checksFirst_dispatch origin).unchanged h (isLogic_of_run h),
    (call.checksFirst_dispatch origin).written_nil h (isLogic_of_run h)⟩

namespace ConcurrentRuntime

/-- The ways a dispatch of `call` on `state` may end. -/
def DispatchOutcome (id : ThreadId) (call : OuterCall) (origin : AccountId) (state : StateMap) :
    Except Panic (RuntimeDispatchResult × ConcurrentRuntime × StateMap) → Prop
  | .ok (result, runtime, state') =>
    runtime = new id ∧
      ((∃ r, (call.dispatch origin).run.run state.data = .ok (r, state'.data) ∧
          result = toRuntimeDispatchResult r) ∨
        Contended id (call.dispatch origin).run state ∧ state'.data = state.data ∧
          ∃ owner orphan, result = .error (.tainted owner orphan))
  | .error why =>
    (call.dispatch origin).run.run state.data = .error why ∨
      Contended id (call.dispatch origin).run state ∧ why.IsExpect

/-- **A dispatch does what the body does alone, or is refused a key and leaves
the data as it is.** -/
theorem dispatch_cases (order : HashOrder) (id : ThreadId) (call : OuterCall)
    (origin : AccountId) (state : StateMap) :
    DispatchOutcome id call origin state (dispatch order (new id) state call origin) := by
  have hrun := run_cases id state (call.failStop_dispatch origin)
  rw [dispatch_eq]
  generalize run id (call.dispatch origin).run ∅ state = outcome at hrun
  match outcome, hrun with
  | .error why, hrun => exact hrun
  | .ok (.ok (), cache, state'), ⟨hdata, hend⟩ =>
    have htracks := hend.resolve_right (by simp)
    obtain ⟨state'', hcommit, -, hoverlay⟩ := commitCache_eq order htracks.cached
    have hdone := (htracks.run_of_done (e := state.data) fun _ _ => rfl).1
    simp only [hcommit]
    exact ⟨rfl, Or.inl ⟨.ok (), by rw [hoverlay, hdata]; exact hdone, rfl⟩⟩
  | .ok (.error e, cache, state'), ⟨hdata, hend⟩ =>
    refine ⟨rfl, hend.imp (fun htracks => ?_) fun ⟨hc, owner, e', he, orphan, horphan⟩ => ?_⟩
    · have hdone := (htracks.run_of_done (e := state.data) fun _ _ => rfl).1
      have hsame := (OuterCall.unchanged_of_run hdone).1
      exact ⟨.error e, by rw [hdata, hdone, hsame], rfl⟩
    · cases he
      cases horphan
      exact ⟨hc, hdata, owner, orphan, rfl⟩

end ConcurrentRuntime

namespace SequentialRuntime

/-- A dispatch does what the body does alone. -/
theorem dispatch_of_ok {call : OuterCall} {origin : AccountId} {state : StateMap}
    {r : Except DispatchError Unit} {d : Key → Value}
    (h : (call.dispatch origin).run.run state.data = .ok (r, d)) :
    ∃ state', dispatch state call origin = .ok (toRuntimeDispatchResult r, state') ∧
      state'.data = d ∧
      ∀ k, k ∈ state' ↔ k ∈ state ∨ k ∈ (call.dispatch origin).run.written state.data := by
  obtain ⟨state', hrun, hdata, hmem⟩ := run_of_ok h
  exact ⟨state', by rw [dispatch, hrun], hdata, hmem⟩

theorem dispatch_of_error {call : OuterCall} {origin : AccountId} {state : StateMap} {why : Panic}
    (h : (call.dispatch origin).run.run state.data = .error why) :
    dispatch state call origin = .error why := by
  rw [dispatch, run_of_error h]

end SequentialRuntime

/-- The two dispatches panicked alike, or returned the same result and left the
same data. -/
def DispatchesAgree : Except Panic (RuntimeDispatchResult × ConcurrentRuntime × StateMap) →
    Except Panic (RuntimeDispatchResult × StateMap) → Prop
  | .ok (result, _, state), .ok (result', state') => result = result' ∧ state.data = state'.data
  | .error why, .error why' => why = why'
  | _, _ => False

/-- **The two runtimes agree** wherever every key that the call touches is
absent, untainted or tainted by the thread itself; and the sequential one, which
has no cache to drop, leaves the data unchanged on a logical error. -/
theorem runtimes_agree (order : HashOrder) (call : OuterCall) (origin : AccountId)
    (state : StateMap) :
    (∀ id, (∀ key ∈ (call.dispatch origin).run.touched state.data,
        state.taint key = none ∨ state.taint key = some id) →
      DispatchesAgree (ConcurrentRuntime.dispatch order (.new id) state call origin)
        (SequentialRuntime.dispatch state call origin)) ∧
    ∀ why state', SequentialRuntime.dispatch state call origin = .ok (.ok (.logicError why), state') →
      state'.data = state.data := by
  refine ⟨fun id hown => ?_, fun why state' h => ?_⟩
  · have hfree : ¬ ConcurrentRuntime.Contended id (call.dispatch origin).run state := by
      rintro ⟨key, hkey, owner, ho, hk⟩
      rcases hown key hkey with hn | hn
      · rw [hn] at hk; cases hk
      · rw [hn] at hk; exact ho (Option.some.inj hk).symm
    have hcases := ConcurrentRuntime.dispatch_cases order id call origin state
    generalize ConcurrentRuntime.dispatch order (.new id) state call origin = outcome at hcases
    match outcome, hcases with
    | .ok (result, runtime, state'), ⟨_, hend⟩ =>
      obtain ⟨r, hrun, rfl⟩ := hend.resolve_right fun hc => hfree hc.1
      obtain ⟨state'', hseq, hdata, -⟩ := SequentialRuntime.dispatch_of_ok hrun
      rw [hseq]
      exact ⟨rfl, hdata.symm⟩
    | .error why, hend =>
      rw [SequentialRuntime.dispatch_of_error (hend.resolve_right fun hc => hfree hc.1)]
      rfl
  · cases hrun : (call.dispatch origin).run.run state.data with
    | error p => rw [SequentialRuntime.dispatch_of_error hrun] at h; cases h
    | ok out =>
      obtain ⟨r, d⟩ := out
      obtain ⟨state'', hseq, hdata, -⟩ := SequentialRuntime.dispatch_of_ok hrun
      rw [hseq] at h
      obtain ⟨hr, rfl⟩ := Prod.mk.inj (Except.ok.inj h)
      cases r with
      | ok u => cases hr
      | error e => rw [hdata, (OuterCall.unchanged_of_run hrun).1]

end

section Witness
open Testing

/-- Some order of iteration. -/
noncomputable def HashOrder.arbitrary : HashOrder where
  entries cache := cache.entries.toList.map fun entry => (entry.1, entry.2)
  nodup_entries cache := by
    refine List.Nodup.map (fun x y h => ?_) (Multiset.coe_nodup.mp ?_)
    · obtain ⟨h1, h2⟩ := Prod.mk.inj h
      exact Sigma.ext h1 (heq_of_eq h2)
    · rw [Multiset.coe_toList]; exact cache.nodup_entries
  mem_entries cache key value := by
    rw [Finmap.lookup_eq_some_iff]
    simp only [List.mem_map, Multiset.mem_toList]
    constructor
    · rintro ⟨⟨k, v⟩, h, he⟩
      cases he
      exact h
    · exact fun h => ⟨⟨key, value⟩, h, rfl⟩

/-- Thread 1 owns alice's balance, and thread 2 dave's. -/
def ownedState : StateMap :=
  ((∅ : StateMap).insert (balanceOf.keyFor alice) ⟨leBytes 16 10 ++ leBytes 16 0, some 1⟩).insert
    (balanceOf.keyFor dave) ⟨[], some 2⟩

/-- A transfer from alice to bob, who has no entry yet, by thread 1. -/
theorem runtimes_agree_transfer :
    DispatchesAgree
      (ConcurrentRuntime.dispatch .arbitrary (.new 1) ownedState
        (.balances (.transfer bob 4)) alice)
      (SequentialRuntime.dispatch ownedState (.balances (.transfer bob 4)) alice) :=
  (runtimes_agree .arbitrary (.balances (.transfer bob 4)) alice ownedState).1 1
    (by decide +kernel)

end Witness
end SonicChain
