import SonicChain.RuntimeAgreement

/-! # Calls give way

A call that is refused a key it has not been granted yet ends at once in
`Tainted`, and the accesses whose refusal it does not expect are to keys that it
holds (`OuterCall.yields_dispatch`).  So other threads' taints never make a
dispatch panic: what panics in a worker panics alone (`ConcurrentRuntime.run_panics`).
-/

namespace SonicChain
open StoreProgram

section
variable [Ed25519]

/-- How a call tells that it was refused a key: it is to be forwarded only if it
holds nothing yet.  The call to replace the controller gives up the previous one's
key in the same way. -/
def OuterCall.Reports (call : OuterCall) (held : List Key) (owner : ThreadId)
    (e : DispatchError) : Prop :=
  e = .tainted owner true ∨
    e = .tainted owner false ∧ (held = [] ∨ ∃ ctrl, call = .staking (.txSetController ctrl))

/-! ## The storage operations -/

section
variable {A B : Type} {reports : List Key → ThreadId → DispatchError → Prop} {held : List Key}
  {post : A → List Key → Prop}

omit [Ed25519] in
theorem yields_orPanic {r : Except Panic A} (h : ∀ a, r = .ok a → post a held) :
    Yields reports post (orPanic r : Dispatch A).run held := by
  cases r with
  | ok a => exact h a rfl
  | error why => trivial

omit [Ed25519] in
theorem yields_orLogicError {r : Except Panic (Except String A)}
    (h : ∀ a, r = .ok (.ok a) → post a held) :
    Yields reports post (orLogicError r).run held :=
  Yields.bind (yields_orPanic fun r' hr => by
    cases r' with
    | ok a => exact h a hr
    | error why => trivial)

variable [Codec A] [Inhabited A] (map : StorageMap A) (a : AccountId)

theorem yields_read {f : ThreadId → DispatchError}
    (hf : map.keyFor a ∉ held → ∀ owner, reports held owner (f owner))
    (h : ∀ v, post v (map.keyFor a :: held)) :
    Yields reports post ((map.read a).adapt f : Dispatch A).run held := by
  refine ⟨fun hk owner => ⟨f owner, rfl, hf hk owner⟩, fun encoded => ?_⟩
  change Yields reports post ((orPanic (StorageMap.decodeOrDefault encoded) :
    ExceptT ThreadId Storage A).adapt f : Dispatch A).run _
  cases (StorageMap.decodeOrDefault encoded : Except Panic A) with
  | ok v => exact h v
  | error why => trivial

omit [Inhabited A] [Codec A] in
theorem yields_exists [Codec A] [Inhabited A] [DecidableEq A] {f : ThreadId → DispatchError}
    {post : Bool → List Key → Prop}
    (hf : map.keyFor a ∉ held → ∀ owner, reports held owner (f owner))
    (h : ∀ b, post b (map.keyFor a :: held)) :
    Yields reports post ((map.exists a).adapt f : Dispatch Bool).run held := by
  refine ⟨fun hk owner => ⟨f owner, rfl, hf hk owner⟩, fun encoded => ?_⟩
  change Yields reports post (((do
    return decide ((← (orPanic (StorageMap.decodeOrDefault encoded) : ExceptT ThreadId Storage A)) ≠
      default)) : ExceptT ThreadId Storage Bool).adapt f : Dispatch Bool).run _
  cases (StorageMap.decodeOrDefault encoded : Except Panic A) with
  | ok v => exact h _
  | error why => trivial

variable {post : Unit → List Key → Prop}

omit [Inhabited A] in
theorem yields_write {f : ThreadId → DispatchError} {v : A}
    (hf : map.keyFor a ∉ held → ∀ owner, reports held owner (f owner))
    (h : post () (map.keyFor a :: held)) :
    Yields reports post ((map.write a v).adapt f : Dispatch Unit).run held := by
  cases hv : (Codec.encode v : Except Panic Value) with
  | ok bytes =>
    have hrun : ((map.write a v).adapt f : Dispatch Unit).run =
        .write (map.keyFor a) bytes fun r => .done (r.mapError f) := by
      rw [run_adapt, StorageMap.write, hv]; rfl
    rw [hrun]
    exact ⟨fun hk owner => ⟨f owner, rfl, hf hk owner⟩, fun _ => h⟩
  | error why =>
    have hrun : ((map.write a v).adapt f : Dispatch Unit).run = .fault why := by
      rw [run_adapt, StorageMap.write, hv]; rfl
    rw [hrun]
    trivial

omit [Inhabited A] in
/-- The write of a key that the call holds. -/
theorem yields_expect {text : String} {v : A} (hk : map.keyFor a ∈ held)
    (h : post () (map.keyFor a :: held)) :
    Yields reports post (expect text (map.write a v)).run held := by
  cases hv : (Codec.encode v : Except Panic Value) with
  | ok bytes =>
    have hrun : ∃ next, (expect text (map.write a v)).run = .write (map.keyFor a) bytes next ∧
        next (.ok ()) = .done (.ok ()) := by
      rw [StorageMap.write, hv]
      exact ⟨_, rfl, rfl⟩
    obtain ⟨next, hrun, hnext⟩ := hrun
    rw [hrun]
    refine ⟨fun hn => absurd hk hn, fun _ => ?_⟩
    rw [hnext]
    exact h
  | error why =>
    have hrun : (expect text (map.write a v)).run = .fault why := by
      rw [StorageMap.write, hv]; rfl
    rw [hrun]
    trivial

theorem yields_mutate {f : ThreadId → DispatchError} {update : A → Except Panic A}
    (hf : map.keyFor a ∉ held → ∀ owner, reports held owner (f owner))
    (h : post () (map.keyFor a :: map.keyFor a :: held)) :
    Yields reports post ((map.mutate a update).adapt f : Dispatch Unit).run held := by
  refine ⟨fun hk owner => ⟨f owner, rfl, hf hk owner⟩, fun encoded => ?_⟩
  change Yields reports post (((do
    let old ← (orPanic (StorageMap.decodeOrDefault encoded) : ExceptT ThreadId Storage A)
    map.write a (← orPanic (update old))) : ExceptT ThreadId Storage Unit).adapt f :
      Dispatch Unit).run _
  cases (StorageMap.decodeOrDefault encoded : Except Panic A) with
  | error why => trivial
  | ok old =>
    change Yields reports post (((do
      map.write a (← orPanic (update old))) : ExceptT ThreadId Storage Unit).adapt f :
        Dispatch Unit).run _
    cases update old with
    | error why => trivial
    | ok new => exact yields_write map a (fun hk => absurd (List.mem_cons_self ..) hk) h

end

/-! ## The calls -/

section
variable {post : Unit → List Key → Prop}

theorem Balances.yields_transfer (origin dest : AccountId) (value : Balance) :
    Yields (OuterCall.Reports (.balances (.transfer dest value))) (fun _ _ => True)
      (transfer origin dest value).run [] := by
  refine Yields.bind (yields_read _ _ (fun _ owner => .inr ⟨rfl, .inl rfl⟩) fun oldBalance => ?_)
  split
  · refine Yields.bind (yields_expect _ _ (List.mem_cons_self ..) ?_)
    exact yields_mutate _ _ (fun _ owner => .inl rfl) trivial
  · trivial

theorem Staking.yields_bondedLedger {call : OuterCall} (ctrl : AccountId)
    {post : AccountId × StakingLedger → List Key → Prop}
    (h : ∀ stash ledger, post (stash, ledger) [ledgerOf.keyFor stash, bonded.keyFor ctrl]) :
    Yields call.Reports post (bondedLedger ctrl).run [] := by
  refine Yields.bind (yields_read _ _ (fun _ owner => .inr ⟨rfl, .inl rfl⟩) fun stash => ?_)
  by_cases hstash : stash = default
  · simp only [hstash, ↓reduceIte]; trivial
  simp only [hstash, ↓reduceIte]
  refine Yields.bind (yields_read _ _ (fun _ owner => .inl rfl) fun ledger => ?_)
  by_cases hledger : ledger = default
  · simp only [hledger, ↓reduceIte]; trivial
  · simp only [hledger, ↓reduceIte]; exact h stash ledger

theorem Staking.yields_dispatch (origin : AccountId) (call : Staking.Call) :
    Yields (OuterCall.Reports (.staking call)) (fun _ _ => True) (call.dispatch origin).run [] := by
  cases call with
  | txBond amount controller =>
    refine Yields.bind (yields_exists _ _ (fun _ owner => .inr ⟨rfl, .inl rfl⟩) fun b => ?_)
    cases b with
    | true => trivial
    | false =>
      refine Yields.bind (yields_read _ _ (fun _ owner => .inl rfl) fun _ => ?_)
      refine Yields.bind (yields_orLogicError fun _ _ => ?_)
      refine Yields.bind (yields_expect _ _ (List.mem_cons_self ..) ?_)
      refine Yields.bind (yields_write _ _ (fun _ owner => .inl rfl) ?_)
      exact yields_expect _ _ (by simp) trivial
  | txBondExtra amount =>
    refine Yields.bind (yields_read _ _ (fun _ owner => .inr ⟨rfl, .inl rfl⟩) fun ledger => ?_)
    by_cases hledger : ledger = default
    · simp only [hledger, ↓reduceIte]; trivial
    simp only [hledger, ↓reduceIte]
    refine Yields.bind (yields_read _ _ (fun _ owner => .inl rfl) fun _ => ?_)
    refine Yields.bind (yields_orLogicError fun _ _ => ?_)
    refine Yields.bind (yields_expect _ _ (List.mem_cons_self ..) ?_)
    refine Yields.bind (yields_orPanic fun _ _ => ?_)
    exact yields_expect _ _ (by simp) trivial
  | txUnbond amount =>
    refine Yields.bind (yields_read _ _ (fun _ owner => .inr ⟨rfl, .inl rfl⟩) fun ledger => ?_)
    by_cases hledger : ledger = default
    · simp only [hledger, ↓reduceIte]; trivial
    by_cases hvalue : ledger.value.toNat < amount.toNat
    · simp only [hledger, hvalue, ↓reduceIte]; trivial
    simp only [hledger, hvalue, ↓reduceIte]
    refine Yields.bind (yields_orPanic fun _ _ => ?_)
    refine Yields.bind (yields_expect _ _ (List.mem_cons_self ..) ?_)
    exact yields_mutate _ _ (fun _ owner => .inl rfl) trivial
  | txSetController ctrl =>
    refine Yields.bind (yields_read _ _ (fun _ owner => .inr ⟨rfl, .inl rfl⟩) fun ledger => ?_)
    by_cases hledger : ledger = default
    · simp only [hledger, ↓reduceIte]; trivial
    by_cases hctrl : ledger.controller = ctrl
    · simp only [hledger, hctrl, ↓reduceIte]; trivial
    simp only [hledger, hctrl, ↓reduceIte]
    refine Yields.bind (yields_write _ _ (fun _ owner => .inr ⟨rfl, .inr ⟨ctrl, rfl⟩⟩) ?_)
    refine Yields.bind (yields_write _ _ (fun _ owner => .inl rfl) ?_)
    exact yields_expect _ _ (by simp) trivial
  | txValidate =>
    refine Yields.bind (yields_bondedLedger origin fun stash ledger => ?_)
    exact yields_expect _ _ (List.mem_cons_self ..) trivial
  | txNominate targets =>
    refine Yields.bind (yields_bondedLedger origin fun stash ledger => ?_)
    refine Yields.bind (yields_write _ _ (fun _ owner => .inl rfl) ?_)
    exact yields_expect _ _ (by simp) trivial
  | txChill =>
    refine Yields.bind (yields_bondedLedger origin fun stash ledger => ?_)
    by_cases hrole : ledger.role = .nominator
    · simp only [hrole, ↓reduceIte]
      refine Yields.bind (yields_write _ _ (fun _ owner => .inl rfl) ?_)
      exact yields_expect _ _ (by simp) trivial
    · simp only [hrole, ↓reduceIte]
      exact yields_expect _ _ (List.mem_cons_self ..) trivial

/-- **Every call gives way**: refused a key that it does not hold, it returns
`Tainted`. -/
theorem OuterCall.yields_dispatch (origin : AccountId) (call : OuterCall) :
    Yields call.Reports (fun _ _ => True) (call.dispatch origin).run [] := by
  cases call with
  | balances call =>
    cases call with
    | transfer dest value => exact Balances.yields_transfer origin dest value
  | staking call => exact Staking.yields_dispatch origin call

end
end

/-! ## The runtime -/

namespace ConcurrentRuntime
variable {id : ThreadId} {code : Storage (Except DispatchError Unit)} {state : StateMap}

/-- **Code that gives way panics only where it panics alone.** -/
theorem run_panics {reports : List Key → ThreadId → DispatchError → Prop}
    (hy : Yields reports (fun _ _ => True) code []) (why : Panic)
    (h : run id code ∅ state = .error why) : code.run state.data = .error why := by
  -- What is left of the code, over the cache filled so far; the keys held are owned.
  suffices key : ∀ (rest : Storage (Except DispatchError Unit)) (held : List Key) (cache : Cache)
      (now : StateMap), Yields reports (fun _ _ => True) rest held →
      (∀ k ∈ held, Owns id now k) → now.data = state.data →
      Tracks code rest (fun k => cache.lookup k) (Owns id now) state.data →
      run id rest cache now = .error why → code.run state.data = .error why from
    key code [] ∅ state hy nofun rfl (Tracks.start code _ _) h
  have unheld : ∀ {now : StateMap} {held : List Key} {key : Key} {owner : ThreadId},
      (∀ k ∈ held, Owns id now k) → owner ≠ id → now.taint key = some owner → key ∉ held :=
    fun hheld ho hk hm => ho (Option.some.inj (hk.symm.trans (hheld _ hm)))
  have grown : ∀ {now now' : StateMap} {held : List Key} {key : Key},
      (∀ k ∈ held, Owns id now k) → now'.taint = Function.update now.taint key (some id) →
      ∀ k ∈ key :: held, Owns id now' k := by
    intro now now' held key hheld htaint k hk
    rcases List.mem_cons.mp hk with rfl | hk
    · exact owns_of_update htaint
    · exact (hheld k hk).update htaint
  intro rest
  induction rest with
  | done result => exact fun held cache now _ _ _ _ h => by cases h
  | fault f =>
    intro held cache now _ _ _ ht h
    cases h
    exact ht.run_of_fault
  | read key next ih =>
    intro held cache now hy hheld hdata ht h
    rcases read_cases (ht.cached key) with ⟨now', hread, hdata', htaint, -⟩ | ⟨owner, ho, hk, hread⟩
    · rw [run, hread, hdata] at h
      exact ih _ _ cache now' (hy.2 _) (grown hheld htaint) (hdata'.trans hdata)
        ((ht.mono (fun _ hk => hk.update htaint) fun _ _ => rfl).read (owns_of_update htaint)) h
    · obtain ⟨e, hnext, -⟩ := hy.1 (unheld hheld ho hk) owner
      rw [run, hread] at h
      dsimp only at h
      rw [hnext] at h
      cases h
  | write key value next ih =>
    intro held cache now hy hheld hdata ht h
    rcases read_cases (ht.cached key) with ⟨now', hread, hdata', htaint, -⟩ | ⟨owner, ho, hk, hread⟩
    · rw [run, write, hread] at h
      refine ih _ _ _ now' (hy.2 _) (grown hheld htaint) (hdata'.trans hdata) ?_ h
      rw [Cache.lookup_insert]
      exact (ht.mono (fun _ hk => hk.update htaint) fun _ _ => rfl).write (owns_of_update htaint)
    · obtain ⟨e, hnext, -⟩ := hy.1 (unheld hheld ho hk) owner
      rw [run, write, hread] at h
      dsimp only at h
      rw [hnext] at h
      cases h

end ConcurrentRuntime

/-- **A dispatch panics only as the call does alone**, whatever others own. -/
theorem ConcurrentRuntime.dispatch_panics [Ed25519] {order : HashOrder} {id : ThreadId}
    {call : OuterCall} {origin : AccountId} {state : StateMap} {why : Panic}
    (h : dispatch order (new id) state call origin = .error why) :
    (call.dispatch origin).run.run state.data = .error why := by
  have hrun := run_cases id state (call.failStop_dispatch origin)
  have hpanics : ∀ p, run id (call.dispatch origin).run ∅ state = .error p →
      (call.dispatch origin).run.run state.data = .error p := run_panics (call.yields_dispatch origin)
  rw [dispatch_eq] at h
  generalize run id (call.dispatch origin).run ∅ state = outcome at hrun hpanics h
  match outcome, hrun with
  | .error p, _ =>
    cases h
    exact hpanics why rfl
  | .ok (.ok (), cache, state'), ⟨_, hend⟩ =>
    obtain ⟨state'', hcommit, -, -⟩ :=
      commitCache_eq order (hend.resolve_right (by simp)).cached
    simp only [hcommit] at h
    cases h
  | .ok (.error e, cache, state'), _ => cases h

end SonicChain
