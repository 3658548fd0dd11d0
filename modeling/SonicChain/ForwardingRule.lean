import SonicChain.Refusals
import SonicChain.DispatchEffects
import SonicChain.TypedStorage

/-! # When a transaction is forwarded

A refusal is to be reported as one to forward only on the first access of a
dispatch, since the owner of a later key does not own the earlier ones.  The calls
keep to this but for `tx_set_controller`, which reports a refusal of the previous
controller's key, its second access, in the same way (`forwards_on_first_iff`).
-/

namespace SonicChain
open StoreProgram

namespace ConcurrentRuntime
variable {A : Type}

/-- Who has refused an access. -/
def refuser {B : Type} : Except ThreadId B → Option ThreadId
  | .ok _ => none
  | .error owner => some owner

/-- The keys that the code accesses, with who has refused the access. -/
def accesses (id : ThreadId) : Storage A → Cache → StateMap → List (Key × Option ThreadId)
  | .done _, _, _ => []
  | .fault _, _, _ => []
  | .read key next, cache, state =>
    match read id cache state key with
    | .ok (outcome, state') => (key, refuser outcome) :: accesses id (next outcome) cache state'
    | .error _ => []
  | .write key value next, cache, state =>
    match write id cache state key value with
    | .ok (outcome, cache', state') =>
      (key, refuser outcome) :: accesses id (next outcome) cache' state'
    | .error _ => []

/-- The keys have been granted, and then the last was refused. -/
def grantedThen (granted : List Key) (key : Key) (owner : ThreadId) :
    List (Key × Option ThreadId) :=
  granted.map (·, none) ++ [(key, some owner)]

theorem grantedThen_cons (k : Key) (granted : List Key) (key : Key) (owner : ThreadId) :
    (k, none) :: grantedThen granted key owner = grantedThen (k :: granted) key owner := rfl

theorem granted_of_grantedThen_eq {granted granted' : List Key} {key key' : Key}
    {owner owner' : ThreadId} (h : grantedThen granted key owner = grantedThen granted' key' owner') :
    granted = granted' := by
  have hfirst := congrArg (List.map Prod.fst) h
  simp only [grantedThen, List.map_append, List.map_map, List.map_cons, List.map_nil] at hfirst
  have hkeys : ∀ l : List Key, l.map (Prod.fst ∘ fun k => (k, (none : Option ThreadId))) = l :=
    fun l => l.map_id'
  rw [hkeys, hkeys] at hfirst
  exact (List.append_inj' hfirst rfl).1

/-- Only the last access has been refused. -/
theorem eq_of_refused_mem {granted : List Key} {key key' : Key} {owner owner' : ThreadId}
    (h : (key', some owner') ∈ grantedThen granted key owner) : owner' = owner := by
  rcases List.mem_append.mp h with h | h
  · obtain ⟨k, -, hk⟩ := List.mem_map.mp h
    cases hk
  · exact Option.some.inj (Prod.mk.inj (List.mem_singleton.mp h)).2

section
variable {id : ThreadId} {cache cache' : Cache} {state state₁ state' : StateMap} {owner : ThreadId}
  {orphan : Bool} {granted : List Key} {key : Key}

/-- All accesses of the code are granted, and it reports no refusal. -/
structure EndsGranted (id : ThreadId) (code : Storage (Except DispatchError Unit)) (cache : Cache)
    (state : StateMap) : Prop where
  accesses : ∀ access ∈ accesses id code cache state, access.2 = none
  run : ∀ owner orphan cache' state',
    run id code cache state ≠ .ok (.error (.tainted owner orphan), cache', state')

/-- The code is granted the keys, then refused another one by the owner, and returns
`Tainted`. -/
structure EndsRefused (id : ThreadId) (code : Storage (Except DispatchError Unit)) (cache : Cache)
    (state : StateMap) (granted : List Key) (owner : ThreadId) (orphan : Bool) (state' : StateMap) :
    Prop where
  accesses : ∃ key, accesses id code cache state = grantedThen granted key owner
  run : ∃ cache', run id code cache state = .ok (.error (.tainted owner orphan), cache', state')

/-! What the rest of the code does after a granted access, the code does; and a refused
access ends it. -/

section
variable {next : Except ThreadId Value → Storage (Except DispatchError Unit)} {value : Value}

theorem EndsGranted.read
    (hread : ConcurrentRuntime.read id cache state key = .ok (.ok value, state₁))
    (h : EndsGranted id (next (.ok value)) cache state₁) :
    EndsGranted id (.read key next) cache state := by
  constructor
  · rw [ConcurrentRuntime.accesses, hread]
    exact List.forall_mem_cons.mpr ⟨rfl, h.accesses⟩
  · rw [ConcurrentRuntime.run, hread]
    exact h.run

theorem EndsRefused.read
    (hread : ConcurrentRuntime.read id cache state key = .ok (.ok value, state₁))
    (h : EndsRefused id (next (.ok value)) cache state₁ granted owner orphan state') :
    EndsRefused id (.read key next) cache state (key :: granted) owner orphan state' := by
  obtain ⟨⟨last, haccesses⟩, hrun⟩ := h
  constructor
  · refine ⟨last, ?_⟩
    rw [ConcurrentRuntime.accesses, hread, ← grantedThen_cons, ← haccesses]
    rfl
  · rw [ConcurrentRuntime.run, hread]
    exact hrun

theorem EndsRefused.of_read
    (hread : ConcurrentRuntime.read id cache state key = .ok (.error owner, state))
    (hnext : next (.error owner) = .done (.error (.tainted owner orphan))) :
    EndsRefused id (.read key next) cache state [] owner orphan state := by
  constructor
  · refine ⟨key, ?_⟩
    rw [ConcurrentRuntime.accesses, hread]
    simp only [hnext]
    rfl
  · refine ⟨cache, ?_⟩
    rw [ConcurrentRuntime.run, hread]
    simp only [hnext]
    rfl

end

section
variable {next : Except ThreadId Unit → Storage (Except DispatchError Unit)} {old value : Value}

theorem EndsGranted.write (hread : ConcurrentRuntime.read id cache state key = .ok (.ok old, state₁))
    (h : EndsGranted id (next (.ok ())) (cache.insert key value) state₁) :
    EndsGranted id (.write key value next) cache state := by
  constructor
  · rw [ConcurrentRuntime.accesses, ConcurrentRuntime.write, hread]
    exact List.forall_mem_cons.mpr ⟨rfl, h.accesses⟩
  · rw [ConcurrentRuntime.run, ConcurrentRuntime.write, hread]
    exact h.run

theorem EndsRefused.write (hread : ConcurrentRuntime.read id cache state key = .ok (.ok old, state₁))
    (h : EndsRefused id (next (.ok ())) (cache.insert key value) state₁ granted owner orphan state') :
    EndsRefused id (.write key value next) cache state (key :: granted) owner orphan state' := by
  obtain ⟨⟨last, haccesses⟩, hrun⟩ := h
  constructor
  · refine ⟨last, ?_⟩
    rw [ConcurrentRuntime.accesses, ConcurrentRuntime.write, hread, ← grantedThen_cons, ← haccesses]
    rfl
  · rw [ConcurrentRuntime.run, ConcurrentRuntime.write, hread]
    exact hrun

theorem EndsRefused.of_write
    (hread : ConcurrentRuntime.read id cache state key = .ok (.error owner, state))
    (hnext : next (.error owner) = .done (.error (.tainted owner orphan))) :
    EndsRefused id (.write key value next) cache state [] owner orphan state := by
  constructor
  · refine ⟨key, ?_⟩
    rw [ConcurrentRuntime.accesses, ConcurrentRuntime.write, hread]
    simp only [hnext]
    rfl
  · refine ⟨cache, ?_⟩
    rw [ConcurrentRuntime.run, ConcurrentRuntime.write, hread]
    simp only [hnext]
    rfl

end

/-- **Code that gives way is refused its last access at most**, and then reports the
owner as it should having been granted the others. -/
theorem run_ends {reports : List Key → ThreadId → DispatchError → Prop}
    {code : Storage (Except DispatchError Unit)} {held : List Key}
    (hy : Yields reports (fun _ _ => True) code held)
    (hf : FailStop DispatchError.Reports Panic.IsExpect code)
    (hcached : ∀ k, cache.lookup k ≠ none → Owns id state k) (hheld : ∀ k ∈ held, Owns id state k) :
    EndsGranted id code cache state ∨
      ∃ granted owner orphan state', EndsRefused id code cache state granted owner orphan state' ∧
        reports (granted.reverse ++ held) owner (.tainted owner orphan) ∧
        (granted = [] → state' = state) := by
  -- The code has ended by giving way, and tells the owner.
  have gives : ∀ {key : Key} {owner : ThreadId} {rest : Storage (Except DispatchError Unit)}
      {state : StateMap} {held : List Key}, owner ≠ id → state.taint key = some owner →
      (∀ k ∈ held, Owns id state k) →
      (key ∉ held → ∃ x, rest = .done (.error x) ∧ reports held owner x) →
      Refused DispatchError.Reports Panic.IsExpect owner rest →
      ∃ orphan, rest = .done (.error (.tainted owner orphan)) ∧
        reports held owner (.tainted owner orphan) := by
    intro key owner rest state held hne howner hheld hgives hrefused
    obtain ⟨x, rfl, hreports⟩ := hgives fun hmem =>
      hne (Option.some.inj (howner.symm.trans (hheld key hmem)))
    obtain ⟨orphan, rfl⟩ : DispatchError.Reports owner x := hrefused
    exact ⟨orphan, rfl, hreports⟩
  have grown : ∀ {state state₁ : StateMap} {held : List Key} {key : Key},
      (∀ k ∈ held, Owns id state k) → state₁.taint = Function.update state.taint key (some id) →
      ∀ k ∈ key :: held, Owns id state₁ k := by
    intro state state₁ held key hheld htaint k hk
    rcases List.mem_cons.mp hk with rfl | hk
    · exact owns_of_update htaint
    · exact (hheld k hk).update htaint
  induction code generalizing held cache state with
  | done result =>
    refine .inl ⟨fun access haccess => absurd haccess List.not_mem_nil, ?_⟩
    intro owner orphan cache' state' h
    obtain ⟨rfl, -⟩ := Prod.mk.inj (Except.ok.inj h)
    exact hf owner ⟨orphan, rfl⟩
  | fault why =>
    exact .inl ⟨fun access haccess => absurd haccess List.not_mem_nil, fun _ _ _ _ h => by cases h⟩
  | read key next ih =>
    rcases read_cases (hcached key) with ⟨state₁, hread, -, htaint, -⟩ | ⟨owner, hne, howner, hread⟩
    · rcases ih _ (hy.2 _) (hf.2 _) (fun k hk => (hcached k hk).update htaint) (grown hheld htaint)
        with hgranted | ⟨granted, owner, orphan, state', hrefused, hreports, -⟩
      · exact .inl (hgranted.read hread)
      · refine .inr ⟨key :: granted, owner, orphan, state', hrefused.read hread, ?_,
          fun hnil => by cases hnil⟩
        rwa [List.reverse_cons, List.append_assoc]
    · obtain ⟨orphan, hnext, hreports⟩ :=
        gives hne howner hheld (fun hk => hy.1 hk owner) (hf.1 owner)
      exact .inr ⟨[], owner, orphan, state, .of_read hread hnext, hreports, fun _ => rfl⟩
  | write key value next ih =>
    rcases read_cases (hcached key) with ⟨state₁, hread, -, htaint, -⟩ | ⟨owner, hne, howner, hread⟩
    · have hcached' : ∀ k, (cache.insert key value).lookup k ≠ none → Owns id state₁ k := by
        intro k hk
        by_cases hkey : k = key
        · subst hkey
          exact owns_of_update htaint
        · rw [Finmap.lookup_insert_of_ne cache hkey] at hk
          exact (hcached k hk).update htaint
      rcases ih _ (hy.2 _) (hf.2 _) hcached' (grown hheld htaint)
        with hgranted | ⟨granted, owner, orphan, state', hrefused, hreports, -⟩
      · exact .inl (hgranted.write hread)
      · refine .inr ⟨key :: granted, owner, orphan, state', hrefused.write hread, ?_,
          fun hnil => by cases hnil⟩
        rwa [List.reverse_cons, List.append_assoc]
    · obtain ⟨orphan, hnext, hreports⟩ :=
        gives hne howner hheld (fun hk => hy.1 hk owner) (hf.1 owner)
      exact .inr ⟨[], owner, orphan, state, .of_write hread hnext, hreports, fun _ => rfl⟩

end
end ConcurrentRuntime

section
variable [Ed25519]
open ConcurrentRuntime

/-- **The rule**: a dispatch that returns `Tainted(owner, orphan)` has been refused its
last access, by `owner`.  It was the first access, and has tainted nothing, if the
transaction is to be forwarded; after any other access the transaction is to be an
orphan.  And a dispatch that is refused an access after its first one returns
`Tainted(owner, true)`: no logic error, and no panic. -/
structure ForwardsOnFirst (order : HashOrder) (id : ThreadId) (state : StateMap) (call : OuterCall)
    (origin : AccountId) : Prop where
  tainted : ∀ owner orphan runtime' state',
    ConcurrentRuntime.dispatch order (.new id) state call origin =
        .ok (.error (.tainted owner orphan), runtime', state') →
      ∃ granted key,
        accesses id (call.dispatch origin).run ∅ state = grantedThen granted key owner ∧
        (orphan = false → granted = [] ∧ state' = state) ∧ (granted ≠ [] → orphan = true)
  refused : ∀ first rest key owner,
    accesses id (call.dispatch origin).run ∅ state = first :: rest → (key, some owner) ∈ rest →
      ∃ runtime' state', ConcurrentRuntime.dispatch order (.new id) state call origin =
        .ok (.error (.tainted owner true), runtime', state')

/-- The call replaces the controller of the origin's ledger, which the thread can
read, and the previous controller's key is another thread's. -/
def GivesUpPrevious (id : ThreadId) (state : StateMap) (origin : AccountId) : OuterCall → Prop
  | .staking (.txSetController ctrl) =>
    (state.taint (ledgerOf.keyFor origin) = none ∨ state.taint (ledgerOf.keyFor origin) = some id) ∧
      ∃ ledger owner, ledgerOf.get state.data origin = .ok ledger ∧ ledger ≠ default ∧
        ledger.controller ≠ ctrl ∧ owner ≠ id ∧
        state.taint (bonded.keyFor ledger.controller) = some owner
  | _ => False

variable {order : HashOrder} {id : ThreadId} {state : StateMap} {call : OuterCall}
  {origin : AccountId}

theorem run_of_dispatch_tainted {owner : ThreadId} {orphan : Bool} {runtime' : ConcurrentRuntime}
    {state' : StateMap} (h : ConcurrentRuntime.dispatch order (.new id) state call origin =
      .ok (.error (.tainted owner orphan), runtime', state')) :
    ∃ cache, run id (call.dispatch origin).run ∅ state =
      .ok (.error (.tainted owner orphan), cache, state') := by
  obtain ⟨-, -, ⟨e, cache, hrun, hresult⟩ | ⟨cache, state₁, hrun, -, hresult⟩⟩ := of_dispatch h
  · cases e with
    | tainted owner' orphan' =>
      obtain ⟨rfl, rfl⟩ := RuntimeDispatchError.tainted.inj (Except.error.inj hresult)
      exact ⟨cache, hrun⟩
    | logicError why => cases hresult
  · cases hresult

theorem dispatch_of_run_tainted {owner : ThreadId} {orphan : Bool} {cache : Cache}
    {state' : StateMap} (h : run id (call.dispatch origin).run ∅ state =
      .ok (.error (.tainted owner orphan), cache, state')) :
    ConcurrentRuntime.dispatch order (.new id) state call origin =
      .ok (.error (.tainted owner orphan), .new id, state') := by
  rw [dispatch_eq, h]
  rfl

/-- The rule follows from how the code of the call ends. -/
theorem ForwardsOnFirst.of_ends (h : EndsGranted id (call.dispatch origin).run ∅ state ∨
      ∃ granted owner orphan state',
        EndsRefused id (call.dispatch origin).run ∅ state granted owner orphan state' ∧
        (orphan = false → granted = [] ∧ state' = state) ∧ (granted ≠ [] → orphan = true)) :
    ForwardsOnFirst order id state call origin := by
  constructor
  · intro owner orphan runtime' state' hdispatch
    obtain ⟨cache, hrun⟩ := run_of_dispatch_tainted hdispatch
    rcases h with hgranted | ⟨granted, owner', orphan', state'', hrefused, hfirst, hlater⟩
    · exact absurd hrun (hgranted.run _ _ _ _)
    · obtain ⟨⟨key, haccesses⟩, cache', hrun'⟩ := hrefused
      obtain ⟨hresult, hstate⟩ := Prod.mk.inj (Except.ok.inj (hrun.symm.trans hrun'))
      obtain ⟨rfl, rfl⟩ := DispatchError.tainted.inj (Except.error.inj hresult)
      obtain rfl := (Prod.mk.inj hstate).2
      exact ⟨granted, key, haccesses, hfirst, hlater⟩
  · intro first rest key owner haccesses hmem
    rcases h with hgranted | ⟨granted, owner', orphan, state', hrefused, -, hlater⟩
    · cases hgranted.accesses _ (haccesses ▸ List.mem_cons_of_mem _ hmem)
    · obtain ⟨⟨key', haccesses'⟩, cache', hrun⟩ := hrefused
      have heq := haccesses.symm.trans haccesses'
      obtain rfl := eq_of_refused_mem (heq ▸ List.mem_cons_of_mem _ hmem)
      have hne : granted ≠ [] := by
        rintro rfl
        rw [(List.cons.inj heq).2] at hmem
        exact List.not_mem_nil hmem
      rw [hlater hne] at hrun
      exact ⟨_, _, dispatch_of_run_tainted hrun⟩

/-- Calls that forward on the first access only. -/
theorem forwardsOnFirst_of_yields (hy : Yields (fun held owner e =>
      e = .tainted owner true ∨ e = .tainted owner false ∧ held = []) (fun _ _ => True)
      (call.dispatch origin).run []) : ForwardsOnFirst order id state call origin := by
  refine .of_ends ((run_ends hy (call.failStop_dispatch origin)
    (fun k hk => absurd (Finmap.lookup_empty k) hk)
    (fun k hk => absurd hk List.not_mem_nil)).imp_right ?_)
  rintro ⟨granted, owner, orphan, state', hrefused, hreports, hstate⟩
  rw [List.append_nil, List.reverse_eq_nil_iff] at hreports
  refine ⟨granted, owner, orphan, state', hrefused, fun horphan => ?_, fun hne => ?_⟩
  · rcases hreports with he | ⟨-, hnil⟩
    · rw [(DispatchError.tainted.inj he).2] at horphan
      cases horphan
    · exact ⟨hnil, hstate hnil⟩
  · rcases hreports with he | ⟨-, hnil⟩
    · exact (DispatchError.tainted.inj he).2
    · exact absurd hnil hne

/-- What `tx_set_controller` does once it has removed the previous binding. -/
def Staking.bindNew (stash ctrl : AccountId) (ledger : StakingLedger) : Dispatch Unit := do
  orOrphan (bonded.write ctrl stash)
  expect "Must be owned." (ledgerOf.write stash { ledger with controller := ctrl })

/-- The access to the ledger, and then the one to the previous controller's key. -/
theorem Staking.run_txSetController (stash ctrl : AccountId) : ∃ cleared : Value,
    (txSetController stash ctrl).run = .read (ledgerOf.keyFor stash) fun
      | .error owner => .done (.error (.tainted owner false))
      | .ok encoded =>
        match (StorageMap.decodeOrDefault encoded : Except Panic StakingLedger) with
        | .error why => .fault why
        | .ok ledger =>
          if ledger = default then .done (.error (.logicError "Not bonded."))
          else if ledger.controller = ctrl then .done (.ok ())
          else .write (bonded.keyFor ledger.controller) cleared fun
            | .error owner => .done (.error (.tainted owner false))
            | .ok () => (bindNew stash ctrl ledger).run := by
  refine ⟨(default : AccountId).bytes, congrArg (StoreProgram.read _) (funext fun r => ?_)⟩
  cases r with
  | error owner => rfl
  | ok encoded =>
    change (((orPanic (StorageMap.decodeOrDefault encoded) :
      ExceptT ThreadId Storage StakingLedger).adapt (.tainted · false) : Dispatch StakingLedger) >>=
        fun ledger => do
          if ledger = default then
            throw (.logicError "Not bonded.")
          if ledger.controller = ctrl then
            return ()
          orForward (bonded.clear ledger.controller)
          bindNew stash ctrl ledger).run = _
    dsimp only
    cases (StorageMap.decodeOrDefault encoded : Except Panic StakingLedger) with
    | error why => rfl
    | ok ledger =>
      change (do
        if ledger = default then
          throw (.logicError "Not bonded.")
        if ledger.controller = ctrl then
          return ()
        orForward (bonded.clear ledger.controller)
        bindNew stash ctrl ledger : Dispatch Unit).run = _
      by_cases hledger : ledger = default
      · simp only [hledger, ↓reduceIte]
        rfl
      by_cases hctrl : ledger.controller = ctrl
      · simp only [hledger, hctrl, ↓reduceIte]
        rfl
      simp only [hledger, hctrl, ↓reduceIte]
      change StoreProgram.write (bonded.keyFor ledger.controller) _ _ = _
      refine congrArg (StoreProgram.write _ _) (funext fun r => ?_)
      cases r with
      | error owner => rfl
      | ok u => rfl

theorem Staking.failStop_bindNew (stash ctrl : AccountId) (ledger : StakingLedger) :
    FailStopCall (bindNew stash ctrl ledger) :=
  FailStop.bind (failStop_orOrphan (StorageMap.failStop_write _ _ _)) fun _ =>
    failStop_expect _ (StorageMap.failStop_write _ _ _)

theorem Staking.yields_bindNew (stash ctrl : AccountId) (ledger : StakingLedger) {held : List Key}
    (hheld : ledgerOf.keyFor stash ∈ held) :
    Yields (fun _ owner e => e = .tainted owner true) (fun _ _ => True)
      (bindNew stash ctrl ledger).run held := by
  refine Yields.bind (yields_write _ _ (fun _ owner => rfl) ?_)
  exact yields_expect _ _ (List.mem_cons_of_mem _ hheld) trivial

omit [Ed25519] in
/-- The first access of a dispatch. -/
theorem ConcurrentRuntime.first_read_cases (id : ThreadId) (state : StateMap) (key : Key) :
    (∃ state₁, read id ∅ state key = .ok (.ok (state.data key), state₁) ∧
        state₁.taint = Function.update state.taint key (some id) ∧
        (state.taint key = none ∨ state.taint key = some id)) ∨
      ∃ owner, owner ≠ id ∧ state.taint key = some owner ∧
        read id ∅ state key = .ok (.error owner, state) := by
  have hempty : (∅ : Cache).lookup key = none := Finmap.lookup_empty key
  rcases @read_cases id ∅ state key (fun hk => absurd hempty hk) with
    ⟨state₁, hread, -, htaint, hfree⟩ | hrefused
  · rw [overlay_of_none (c := fun k => (∅ : Cache).lookup k) hempty] at hread
    exact .inl ⟨state₁, hread, htaint, hfree⟩
  · exact .inr hrefused

/-- Where `tx_set_controller` is refused. -/
theorem Staking.txSetController_ends {ctrl : AccountId}
    (hgives : ¬ GivesUpPrevious id state origin (.staking (.txSetController ctrl))) :
    EndsGranted id (txSetController origin ctrl).run ∅ state ∨
      ∃ granted owner orphan state',
        EndsRefused id (txSetController origin ctrl).run ∅ state granted owner orphan state' ∧
        (orphan = false → granted = [] ∧ state' = state) ∧ (granted ≠ [] → orphan = true) := by
  obtain ⟨cleared, hcode⟩ := run_txSetController origin ctrl
  rw [hcode]
  have ended : ∀ {result : Except DispatchError Unit} {state₁ : StateMap},
      (∀ owner orphan, result ≠ .error (.tainted owner orphan)) →
      EndsGranted id (.done result) ∅ state₁ := by
    refine fun hresult => ⟨fun access haccess => absurd haccess List.not_mem_nil, ?_⟩
    intro owner orphan cache' state' h
    exact hresult owner orphan (Prod.mk.inj (Except.ok.inj h)).1
  rcases first_read_cases id state (ledgerOf.keyFor origin) with
    ⟨state₁, hread, htaint, hfree⟩ | ⟨owner, -, -, hread⟩
  · cases hget : (StorageMap.decodeOrDefault (state.data (ledgerOf.keyFor origin)) :
        Except Panic StakingLedger) with
    | error why =>
      refine .inl (.read hread ?_)
      simp only [hget]
      exact ⟨fun access haccess => absurd haccess List.not_mem_nil, fun _ _ _ _ h => by cases h⟩
    | ok ledger =>
      by_cases hledger : ledger = default
      · refine .inl (.read hread ?_)
        simp only [hget, hledger, ↓reduceIte]
        exact ended (by simp)
      by_cases hctrl : ledger.controller = ctrl
      · refine .inl (.read hread ?_)
        simp only [hget, hledger, hctrl, ↓reduceIte]
        exact ended (by simp)
      rcases first_read_cases id state₁ (bonded.keyFor ledger.controller) with
        ⟨state₂, hwrite, htaint₂, -⟩ | ⟨owner, hne, howner, -⟩
      · -- The previous binding has been removed.
        have hheld : ∀ k ∈ [ledgerOf.keyFor origin], Owns id state₂ k := by
          intro k hk
          rw [List.mem_singleton.mp hk]
          exact (owns_of_update htaint).update htaint₂
        have hcached : ∀ k, ((∅ : Cache).insert (bonded.keyFor ledger.controller) cleared).lookup k ≠
            none → Owns id state₂ k := by
          intro k hk
          by_cases hkey : k = bonded.keyFor ledger.controller
          · subst hkey
            exact owns_of_update htaint₂
          · rw [Finmap.lookup_insert_of_ne _ hkey] at hk
            exact absurd (Finmap.lookup_empty k) hk
        rcases run_ends (yields_bindNew origin ctrl ledger (List.mem_singleton_self _))
          (failStop_bindNew origin ctrl ledger) hcached hheld
          with hgranted | ⟨granted, owner, orphan, state', hrefused, hreports, -⟩
        · refine .inl (.read hread ?_)
          simp only [hget, hledger, hctrl, ↓reduceIte]
          exact hgranted.write hwrite
        · obtain rfl := (DispatchError.tainted.inj hreports).2
          refine .inr ⟨ledgerOf.keyFor origin :: bonded.keyFor ledger.controller :: granted, owner,
            true, state', .read hread ?_, fun hfalse => Bool.noConfusion hfalse,
            fun _ => rfl⟩
          simp only [hget, hledger, hctrl, ↓reduceIte]
          exact hrefused.write hwrite
      · -- The previous controller's key was refused.
        refine absurd ⟨hfree, ledger, owner, hget, hledger, hctrl, hne, ?_⟩ hgives
        rw [htaint] at howner
        by_cases hkey : bonded.keyFor ledger.controller = ledgerOf.keyFor origin
        · rw [hkey, Function.update_self] at howner
          exact absurd (Option.some.inj howner).symm hne
        · rwa [Function.update_of_ne hkey] at howner
  · exact .inr ⟨[], owner, false, state, .of_read hread rfl, fun _ => ⟨rfl, rfl⟩,
      fun hne => absurd rfl hne⟩

/-- Where the previous controller's key is another thread's, the second access is
refused, and reported as one to forward. -/
theorem Staking.run_of_givesUpPrevious {ctrl : AccountId}
    (h : GivesUpPrevious id state origin (.staking (.txSetController ctrl))) :
    ∃ owner key state', run id (txSetController origin ctrl).run ∅ state =
        .ok (.error (.tainted owner false), ∅, state') ∧
      accesses id (txSetController origin ctrl).run ∅ state =
        grantedThen [ledgerOf.keyFor origin] key owner := by
  obtain ⟨hfree, ledger, owner, hget, hledger, hctrl, hne, hprevious⟩ := h
  obtain ⟨cleared, hcode⟩ := run_txSetController origin ctrl
  have hkey : bonded.keyFor ledger.controller ≠ ledgerOf.keyFor origin := by
    intro hkey
    rw [← hkey, hprevious] at hfree
    rcases hfree with hfree | hfree
    · cases hfree
    · exact hne (Option.some.inj hfree)
  rcases first_read_cases id state (ledgerOf.keyFor origin) with
    ⟨state₁, hread, htaint, -⟩ | ⟨owner', hne', howner', -⟩
  · rcases first_read_cases id state₁ (bonded.keyFor ledger.controller) with
      ⟨state₂, -, -, hfree₁⟩ | ⟨owner', -, howner, hwrite⟩
    · rw [htaint, Function.update_of_ne hkey, hprevious] at hfree₁
      rcases hfree₁ with hfree₁ | hfree₁
      · cases hfree₁
      · exact absurd (Option.some.inj hfree₁) hne
    · rw [htaint, Function.update_of_ne hkey, hprevious] at howner
      obtain rfl := Option.some.inj howner
      refine ⟨owner, bonded.keyFor ledger.controller, state₁, ?_, ?_⟩
      · rw [hcode, ConcurrentRuntime.run, hread]
        simp only [show (StorageMap.decodeOrDefault (state.data (ledgerOf.keyFor origin)) :
          Except Panic StakingLedger) = .ok ledger from hget, hledger, hctrl, ↓reduceIte]
        rw [ConcurrentRuntime.run, ConcurrentRuntime.write, hwrite]
        rfl
      · rw [hcode, accesses, hread]
        simp only [show (StorageMap.decodeOrDefault (state.data (ledgerOf.keyFor origin)) :
          Except Panic StakingLedger) = .ok ledger from hget, hledger, hctrl, ↓reduceIte]
        rw [accesses, ConcurrentRuntime.write, hwrite]
        rfl
  · rw [howner'] at hfree
    rcases hfree with hfree | hfree
    · cases hfree
    · exact absurd (Option.some.inj hfree) hne'

/-- **Transactions are forwarded on their first access only**, but by a call that
replaces a controller whose key is another thread's. -/
theorem forwards_on_first_iff (order : HashOrder) (id : ThreadId) (state : StateMap)
    (call : OuterCall) (origin : AccountId) :
    ForwardsOnFirst order id state call origin ↔ ¬ GivesUpPrevious id state origin call := by
  by_cases hcall : ∃ ctrl, call = .staking (.txSetController ctrl)
  · obtain ⟨ctrl, rfl⟩ := hcall
    constructor
    · intro hrule hgives
      obtain ⟨owner, key, state', hrun, haccesses⟩ := Staking.run_of_givesUpPrevious hgives
      obtain ⟨granted, key', haccesses', hfirst, -⟩ :=
        hrule.tainted _ _ _ _ (dispatch_of_run_tainted hrun)
      have hgranted := granted_of_grantedThen_eq (haccesses.symm.trans haccesses')
      rw [(hfirst rfl).1] at hgranted
      cases hgranted
    · exact fun hgives => .of_ends (Staking.txSetController_ends hgives)
  · have hnot : ¬ GivesUpPrevious id state origin call := by
      intro hgives
      unfold GivesUpPrevious at hgives
      split at hgives
      case h_1 ctrl => exact hcall ⟨ctrl, rfl⟩
      case h_2 => exact hgives
    refine iff_of_true (forwardsOnFirst_of_yields ?_) hnot
    refine (call.yields_dispatch origin).mono fun held owner e he => ?_
    exact he.imp_right fun hfalse => ⟨hfalse.1, hfalse.2.resolve_right hcall⟩

end

section Counterexample
open Testing ConcurrentRuntime

/-- Alice is bonded to bob as her controller, and bob's key is thread 2's. -/
def bobElsewhere : StateMap :=
  ((∅ : StateMap).insert (ledgerOf.keyFor alice)
    ⟨((Codec.encode (StakingLedger.mk 5 bob .chilled)).toOption.getD []), none⟩).insert
      (bonded.keyFor bob) ⟨alice.bytes, some 2⟩

/-- Thread 1 has read alice's ledger, and is told to forward the transaction. -/
theorem forwarded_on_second :
    ¬ ForwardsOnFirst .arbitrary 1 bobElsewhere (.staking (.txSetController dave)) alice := by
  intro hrule
  have hrun : ∃ out, ConcurrentRuntime.dispatch .arbitrary (.new 1) bobElsewhere
      (.staking (.txSetController dave)) alice = .ok out ∧ out.1 = .error (.tainted 2 false) := by
    decide +kernel
  obtain ⟨⟨result, runtime', state'⟩, hrun, rfl⟩ := hrun
  obtain ⟨granted, key, haccesses, hfirst, -⟩ := hrule.tainted _ _ _ _ hrun
  rw [(hfirst rfl).1] at haccesses
  have htwo : (accesses 1 (OuterCall.dispatch alice (.staking (.txSetController dave))).run ∅
      bobElsewhere).length = 2 := by
    decide +kernel
  rw [haccesses] at htwo
  cases htwo

end Counterexample
end SonicChain
