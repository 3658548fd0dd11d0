import SonicChain.Staking
import SonicChain.State
import Mathlib.Data.List.Sort
import Mathlib.Data.Prod.Lex

/-! # The two runtimes

`SequentialRuntime` executes a call straight on the state.  `ConcurrentRuntime`
asks the taintable state for every key, keeps its writes in a cache, and commits
the cache to the state if the call returns `Ok`.

The state changes of either come down to `StoreProgram.run`: the sequential
runtime is that run (`SequentialRuntime.run_of_ok`), and the concurrent one
tracks it as long as it is refused nothing (`ConcurrentRuntime.run_cases`).
-/

namespace SonicChain
open StoreProgram

/-- The inner hash map used in state. -/
abbrev StateMap := StateType Key Value ThreadId

section OuterCall
variable [Ed25519]

inductive OuterCall where
  | balances (call : Balances.Call)
  | staking (call : Staking.Call)

namespace OuterCall

def dispatch (origin : AccountId) : OuterCall → Dispatch Unit
  | .balances call => call.dispatch origin
  | .staking call => call.dispatch origin

def validate (origin : AccountId) : OuterCall → List Key
  | .balances call => call.validate origin
  | .staking call => call.validate origin

def encode : OuterCall → Except Panic (List UInt8)
  | .balances call => do return 0 :: (← call.encode)
  | .staking call => do return 1 :: (← call.encode)

theorem failStop_dispatch (origin : AccountId) (call : OuterCall) :
    FailStopCall (call.dispatch origin) := by
  cases call with
  | balances call =>
    cases call with
    | transfer dest value => exact Balances.failStop_transfer origin dest value
  | staking call => exact Staking.failStop_dispatch origin call

theorem checksFirst_dispatch (origin : AccountId) (call : OuterCall) :
    ChecksFirst DispatchError.IsLogic (call.dispatch origin).run := by
  cases call with
  | balances call =>
    cases call with
    | transfer dest value => exact Balances.checksFirst_transfer origin dest value
  | staking call => exact Staking.checksFirst_dispatch origin call

/-- Transfers, and the staking calls whose access lists are complete. -/
def AccessComplete : OuterCall → Prop
  | .balances _ => True
  | .staking call => call.AccessComplete

theorem within_dispatch (origin : AccountId) {call : OuterCall} (hcall : call.AccessComplete) :
    Within (· ∈ call.validate origin) (call.dispatch origin).run := by
  cases call with
  | balances call =>
    cases call with
    | transfer dest value => exact Balances.within_transfer origin dest value
  | staking call => exact Staking.within_dispatch origin hcall

end OuterCall
end OuterCall

/-! ## The sequential runtime -/

namespace SequentialRuntime
variable {A : Type}

def read (state : StateMap) (key : Key) : Value := (TaintState.unsafeReadValue state key).getD default

def write (state : StateMap) (key : Key) (value : Value) : StateMap :=
  TaintState.unsafeInsertGenesisValue state key value

/-- One access of the code, or nothing where it has ended. -/
def access : Storage A → StateMap → Storage A × StateMap
  | .read key next, state => (next (.ok (read state key)), state)
  | .write key value next, state => (next (.ok ()), write state key value)
  | .done a, state => (.done a, state)
  | .fault why, state => (.fault why, state)

def run : Storage A → StateMap → Except Panic (A × StateMap)
  | .done a, state => .ok (a, state)
  | .fault why, _ => .error why
  | .read key next, state => run (next (.ok (read state key))) state
  | .write key value next, state => run (next (.ok ())) (write state key value)

def dispatch [Ed25519] (state : StateMap) (call : OuterCall) (origin : AccountId) :
    Except Panic (RuntimeDispatchResult × StateMap) :=
  match run (call.dispatch origin).run state with
  | .ok (result, state') => .ok (toRuntimeDispatchResult result, state')
  | .error why => .error why

@[simp] theorem read_eq (state : StateMap) (key : Key) : read state key = state.data key := by
  cases h : state.lookup key <;> simp [read, TaintState.unsafeReadValue, StateType.data, h]

@[simp] theorem data_write (state : StateMap) (key : Key) (value : Value) :
    (write state key value).data = Function.update state.data key value :=
  StateType.data_insert ..

@[simp] theorem taint_write (state : StateMap) (key : Key) (value : Value) :
    (write state key value).taint = Function.update state.taint key none :=
  StateType.taint_insert ..

@[simp] theorem mem_write {state : StateMap} {key : Key} {value : Value} {k : Key} :
    k ∈ write state key value ↔ k = key ∨ k ∈ state := StateType.mem_insert

/-- **The sequential runtime is the run on the data of the state.**  The keys it
adds to the map are the ones it writes. -/
theorem run_of_ok {code : Storage A} {state : StateMap} {a : A} {d : Key → Value}
    (h : code.run state.data = .ok (a, d)) :
    ∃ state', run code state = .ok (a, state') ∧ state'.data = d ∧
      ∀ k, k ∈ state' ↔ k ∈ state ∨ k ∈ code.written state.data := by
  induction code generalizing state with
  | done b =>
    obtain ⟨rfl, rfl⟩ := Prod.mk.inj (Except.ok.inj h)
    exact ⟨state, rfl, rfl, by simp [written]⟩
  | fault why => cases h
  | read key next ih =>
    obtain ⟨state', hrun, hdata, hmem⟩ := ih (.ok (state.data key)) h
    exact ⟨state', by rw [run, read_eq]; exact hrun, hdata, hmem⟩
  | write key value next ih =>
    have h : (next (.ok ())).run (write state key value).data = .ok (a, d) := by
      rw [data_write]; exact h
    obtain ⟨state', hrun, hdata, hmem⟩ := ih (.ok ()) h
    refine ⟨state', hrun, hdata, fun k => ?_⟩
    rw [hmem, mem_write, data_write, written, List.mem_cons]
    tauto

theorem run_of_error {code : Storage A} {state : StateMap} {why : Panic}
    (h : code.run state.data = .error why) : run code state = .error why := by
  induction code generalizing state with
  | done b => cases h
  | fault f => cases h; rfl
  | read key next ih => rw [run, read_eq]; exact ih _ h
  | write key value next ih => exact ih _ (by rw [data_write]; exact h)

end SequentialRuntime

/-! ## The concurrent runtime -/

/-- The thread local state cache. -/
abbrev Cache := Finmap fun _ : Key => Value

theorem Cache.lookup_insert (cache : Cache) (key : Key) (value : Value) :
    (fun k => (cache.insert key value).lookup k) =
      Function.update (fun k => cache.lookup k) key (some value) := by
  funext k
  by_cases h : k = key
  · subst h; simp
  · simp [Finmap.lookup_insert_of_ne cache h, h]

/-- The order in which iterating over a hash map yields its entries: any order,
each entry once. -/
structure HashOrder where
  entries : Cache → List (Key × Value)
  nodup_entries : ∀ cache, (entries cache).Nodup
  mem_entries : ∀ cache key value, (key, value) ∈ entries cache ↔ cache.lookup key = some value

/-- Entries compare by their keys, then by their values. -/
def entryRank (entry : Key × Value) : List Nat ×ₗ List Nat :=
  toLex (entry.1.map UInt8.toNat, entry.2.map UInt8.toNat)

theorem entryRank_injective : Function.Injective entryRank := by
  rintro ⟨k, v⟩ ⟨k', v'⟩ h
  obtain ⟨hk, hv⟩ := Prod.mk.inj (toLex.injective h)
  have hbyte : Function.Injective UInt8.toNat := fun _ _ => UInt8.toNat_inj.mp
  exact Prod.ext (hbyte.list_map hk) (hbyte.list_map hv)

def sortedEntries (entries : Multiset (Key × Value)) : List (Key × Value) :=
  Quot.liftOn entries (List.insertionSort (Order.Preimage entryRank (· ≤ ·))) fun l l' h => by
    have hanti : Std.Antisymm (Order.Preimage entryRank (· ≤ ·)) :=
      ⟨fun a b hab hba => entryRank_injective (le_antisymm hab hba)⟩
    exact List.Perm.eq_of_pairwise' (List.pairwise_insertionSort _ l)
      (List.pairwise_insertionSort _ l')
      (((List.perm_insertionSort _ l).trans h).trans (List.perm_insertionSort _ l').symm)

theorem coe_sortedEntries (entries : Multiset (Key × Value)) :
    (sortedEntries entries : Multiset (Key × Value)) = entries :=
  Quot.inductionOn entries fun l => Multiset.coe_eq_coe.mpr (List.perm_insertionSort _ l)

/-- A cache whose entries come in the order of their keys. -/
def HashOrder.sorted : HashOrder where
  entries cache := sortedEntries (cache.entries.map fun entry => (entry.1, entry.2))
  nodup_entries cache := by
    rw [← Multiset.coe_nodup, coe_sortedEntries]
    refine cache.nodup_entries.map fun x y h => ?_
    obtain ⟨h1, h2⟩ := Prod.mk.inj h
    exact Sigma.ext h1 (heq_of_eq h2)
  mem_entries cache key value := by
    rw [Finmap.lookup_eq_some_iff, ← Multiset.mem_coe, coe_sortedEntries, Multiset.mem_map]
    constructor
    · rintro ⟨⟨k, v⟩, h, he⟩
      cases he
      exact h
    · exact fun h => ⟨⟨key, value⟩, h, rfl⟩

structure ConcurrentRuntime where
  cache : Cache
  id : ThreadId

namespace ConcurrentRuntime
variable {A : Type}

def new (id : ThreadId) : ConcurrentRuntime := ⟨∅, id⟩

/-- The read answers from the cache, or asks the state. -/
def read (id : ThreadId) (cache : Cache) (state : StateMap) (key : Key) :
    Except Panic (Except ThreadId Value × StateMap) :=
  match cache.lookup key with
  | some value => .ok (.ok value, state)
  | none => TaintState.read state key id

def write (id : ThreadId) (cache : Cache) (state : StateMap) (key : Key) (value : Value) :
    Except Panic (Except ThreadId Unit × Cache × StateMap) :=
  match read id cache state key with
  | .ok (.ok _, state') => .ok (.ok (), cache.insert key value, state')
  | .ok (.error owner, state') => .ok (.error owner, cache, state')
  | .error why => .error why

/-- Code executed with no other thread in between. -/
def run (id : ThreadId) : Storage A → Cache → StateMap → Except Panic (A × Cache × StateMap)
  | .done a, cache, state => .ok (a, cache, state)
  | .fault why, _, _ => .error why
  | .read key next, cache, state =>
    match read id cache state key with
    | .ok (outcome, state') => run id (next outcome) cache state'
    | .error why => .error why
  | .write key value next, cache, state =>
    match write id cache state key value with
    | .ok (outcome, cache', state') => run id (next outcome) cache' state'
    | .error why => .error why

/-- One entry of the cache goes into the state. -/
def commitEntry (id : ThreadId) (state : StateMap) (key : Key) (value : Value) :
    Except Panic StateMap :=
  match TaintState.unsafeReadTaint state key with
  | some owner =>
    if owner = id then .ok (TaintState.unsafeInsert state key (.new value id))
    else .error (.debugAssert "self.state.unsafe_read_taint(k).unwrap() == self.id")
  | none => .error .unwrap

/-- Commit the cache to the persistent state. -/
def commitCache (id : ThreadId) : List (Key × Value) → StateMap → Except Panic StateMap
  | [], state => .ok state
  | (key, value) :: entries, state =>
    match commitEntry id state key value with
    | .ok state' => commitCache id entries state'
    | .error why => .error why

def dispatch [Ed25519] (order : HashOrder) (runtime : ConcurrentRuntime) (state : StateMap)
    (call : OuterCall) (origin : AccountId) :
    Except Panic (RuntimeDispatchResult × ConcurrentRuntime × StateMap) :=
  if runtime.cache ≠ ∅ then .error (.debugAssert "self.cache.borrow().keys().len() == 0")
  else
    match run runtime.id (call.dispatch origin).run runtime.cache state with
    | .ok (.ok (), cache, state') =>
      -- only commit if result is ok.
      match commitCache runtime.id (order.entries cache) state' with
      | .ok state'' =>
        .ok (toRuntimeDispatchResult (.ok ()), { runtime with cache := ∅ }, state'')
      | .error why => .error why
    | .ok (.error e, _, state') =>
      .ok (toRuntimeDispatchResult (.error e), { runtime with cache := ∅ }, state')
    | .error why => .error why

/-- A dispatch over an empty cache. -/
theorem dispatch_eq [Ed25519] (order : HashOrder) (id : ThreadId) (state : StateMap)
    (call : OuterCall) (origin : AccountId) :
    dispatch order (new id) state call origin =
      match run id (call.dispatch origin).run ∅ state with
      | .ok (.ok (), cache, state') =>
        match commitCache id (order.entries cache) state' with
        | .ok state'' => .ok (toRuntimeDispatchResult (.ok ()), new id, state'')
        | .error why => .error why
      | .ok (.error e, _, state') => .ok (toRuntimeDispatchResult (.error e), new id, state')
      | .error why => .error why := rfl

/-! ### What a dispatch does -/

/-- The keys the thread owns. -/
def Owns (id : ThreadId) (state : StateMap) (key : Key) : Prop := state.taint key = some id

/-- Some key that the code touches, run on the data of the state, belongs to
another thread. -/
def Contended (id : ThreadId) (code : Storage A) (state : StateMap) : Prop :=
  ∃ key ∈ code.touched state.data, ∃ owner, owner ≠ id ∧ state.taint key = some owner

/-- A read is granted, and taints the key, or refused by the key's owner.  The
data stays as it is. -/
theorem read_cases {id : ThreadId} {cache : Cache} {state : StateMap} {key : Key}
    (hcached : cache.lookup key ≠ none → Owns id state key) :
    (∃ state', read id cache state key =
        .ok (.ok (overlay (fun k => cache.lookup k) state.data key), state') ∧
        state'.data = state.data ∧ state'.taint = Function.update state.taint key (some id) ∧
        (state.taint key = none ∨ Owns id state key)) ∨
      ∃ owner, owner ≠ id ∧ state.taint key = some owner ∧
        read id cache state key = .ok (.error owner, state) := by
  cases hc : cache.lookup key with
  | some value =>
    have hown := hcached (by simp [hc])
    refine Or.inl ⟨state, ?_, rfl, ?_, Or.inr hown⟩
    · rw [overlay_of_some (c := fun k => cache.lookup k) hc, read, hc]
    · rw [← hown, Function.update_eq_self]
  | none =>
    have hview : overlay (fun k => cache.lookup k) state.data key = state.data key :=
      overlay_of_none (c := fun k => cache.lookup k) hc
    rw [read, hc, hview]
    simp only [TaintState.read_eq, TaintState.atomicRead]
    cases ht : state.taint key with
    | none =>
      refine Or.inl ⟨_, rfl, ?_, by rw [StateType.taint_insert], Or.inl rfl⟩
      rw [StateType.data_insert, Function.update_eq_self]
    | some owner =>
      by_cases ho : owner = id
      · subst ho
        refine Or.inl ⟨state, by simp, rfl, ?_, Or.inr ht⟩
        rw [← ht, Function.update_eq_self]
      · exact Or.inr ⟨owner, ho, rfl, by simp [ho]⟩

/-- A key that is granted is owned from then on. -/
theorem owns_of_update {id : ThreadId} {state state' : StateMap} {key : Key}
    (h : state'.taint = Function.update state.taint key (some id)) : Owns id state' key := by
  rw [Owns, h, Function.update_self]

/-- What is owned stays owned when a key is granted. -/
theorem Owns.update {id : ThreadId} {state state' : StateMap} {key k : Key} (hk : Owns id state k)
    (h : state'.taint = Function.update state.taint key (some id)) : Owns id state' k := by
  by_cases hkey : k = key
  · subst hkey
    exact owns_of_update h
  · rw [Owns, h, Function.update_of_ne hkey]
    exact hk

/-- The ways an execution may end, for code started as `code` on `state`: having
done what the code does alone, or refused a key of another thread. -/
def Outcome (id : ThreadId) (code : Storage (Except DispatchError Unit)) (state : StateMap) :
    Except Panic (Except DispatchError Unit × Cache × StateMap) → Prop
  | .ok (result, cache, state') =>
    state'.data = state.data ∧
      (Tracks code (.done result) (fun k => cache.lookup k) (Owns id state') state.data ∨
        Contended id code state ∧ ∃ owner e, result = .error e ∧ DispatchError.Reports owner e)
  | .error why => code.run state.data = .error why ∨ Contended id code state ∧ why.IsExpect

section
variable {id : ThreadId} {code : Storage (Except DispatchError Unit)} {state : StateMap}

/-- Behind a refusal, the code has ended. -/
theorem outcome_of_refused {rest : Storage (Except DispatchError Unit)} {owner : ThreadId}
    (h : Refused DispatchError.Reports Panic.IsExpect owner rest) (hc : Contended id code state)
    {cache : Cache} {now : StateMap} (hdata : now.data = state.data) :
    Outcome id code state (run id rest cache now) := by
  cases rest with
  | done result =>
    cases result with
    | error e => exact ⟨hdata, Or.inr ⟨hc, owner, e, rfl, h⟩⟩
    | ok u => exact h.elim
  | fault why => exact Or.inr ⟨hc, h⟩
  | read key next => exact h.elim
  | write key value next => exact h.elim

/-- **A dispatch that is refused nothing does what its code does alone.** -/
theorem run_cases (id : ThreadId) (state : StateMap)
    (hf : FailStop DispatchError.Reports Panic.IsExpect code) :
    Outcome id code state (run id code ∅ state) := by
  -- What is left of the code, over the cache filled so far; only taints of `id` are new.
  suffices key : ∀ (rest : Storage (Except DispatchError Unit)) (cache : Cache) (now : StateMap),
      FailStop DispatchError.Reports Panic.IsExpect rest → now.data = state.data →
      (∀ k owner, owner ≠ id → now.taint k = some owner → state.taint k = some owner) →
      Tracks code rest (fun k => cache.lookup k) (Owns id now) state.data →
      Outcome id code state (run id rest cache now) from
    key code ∅ state hf rfl (fun _ _ _ h => h) (Tracks.start code _ _)
  have foreign : ∀ {now now' : StateMap} {key : Key},
      (∀ k owner, owner ≠ id → now.taint k = some owner → state.taint k = some owner) →
      now'.taint = Function.update now.taint key (some id) →
      ∀ k owner, owner ≠ id → now'.taint k = some owner → state.taint k = some owner := by
    intro now now' key hold htaint k owner ho hk
    rw [htaint] at hk
    by_cases hkey : k = key
    · subst hkey
      exact absurd (Option.some.inj (by simpa using hk)).symm ho
    · exact hold k owner ho (by simpa [hkey] using hk)
  intro rest
  induction rest with
  | done result => exact fun cache now _ hdata _ ht => ⟨hdata, Or.inl ht⟩
  | fault why => exact fun cache now _ _ _ ht => Or.inl ht.run_of_fault
  | read key next ih =>
    intro cache now hf hdata hold ht
    rcases read_cases (ht.cached key) with ⟨now', hread, hdata', htaint, -⟩ | ⟨owner, ho, hk, hread⟩
    · rw [run, hread, hdata]
      exact ih _ cache now' (hf.2 _) (hdata'.trans hdata) (foreign hold htaint)
        ((ht.mono (fun _ hk => hk.update htaint) fun _ _ => rfl).read (owns_of_update htaint))
    · rw [run, hread]
      refine outcome_of_refused (hf.1 owner) ⟨key, ?_, owner, ho, hold key owner ho hk⟩ hdata
      exact ht.pending _ (fun _ _ => rfl) key (List.mem_cons_self ..)
  | write key value next ih =>
    intro cache now hf hdata hold ht
    rcases read_cases (ht.cached key) with ⟨now', hread, hdata', htaint, -⟩ | ⟨owner, ho, hk, hread⟩
    · rw [run, write, hread]
      refine ih _ _ now' (hf.2 _) (hdata'.trans hdata) (foreign hold htaint) ?_
      rw [Cache.lookup_insert]
      exact (ht.mono (fun _ hk => hk.update htaint) fun _ _ => rfl).write (owns_of_update htaint)
    · rw [run, write, hread]
      refine outcome_of_refused (hf.1 owner) ⟨key, ?_, owner, ho, hold key owner ho hk⟩ hdata
      exact ht.pending _ (fun _ _ => rfl) key (List.mem_cons_self ..)

end

/-- An entry under an owned key goes in. -/
theorem commitEntry_eq {id : ThreadId} {state : StateMap} {key : Key} {value : Value}
    (h : Owns id state key) :
    commitEntry id state key value = .ok (state.insert key ⟨value, some id⟩) := by
  have h : TaintState.unsafeReadTaint state key = some id := h
  simp [commitEntry, h, TaintState.unsafeInsert, StateValue.new]

theorem Owns.insert {id : ThreadId} {state : StateMap} {key : Key} (h : Owns id state key)
    (k : Key) (value : Value) : Owns id (state.insert k ⟨value, some id⟩) key := by
  by_cases hk : key = k
  · subst hk; simp [Owns]
  · simpa [Owns, hk] using h

theorem commitCache_cases {id : ThreadId} {entries : List (Key × Value)} {cache : Cache}
    (hentries : ∀ key value, (key, value) ∈ entries → cache.lookup key = some value)
    {state : StateMap} (hown : ∀ key value, (key, value) ∈ entries → Owns id state key) :
    ∃ state', commitCache id entries state = .ok state' ∧ state'.taint = state.taint ∧
      (∀ k, state'.data k = state.data k ∨ cache.lookup k = some (state'.data k)) ∧
      ∀ key value, (key, value) ∈ entries → state'.data key = value := by
  induction entries generalizing state with
  | nil => exact ⟨state, rfl, rfl, fun _ => Or.inl rfl, by simp⟩
  | cons entry entries ih =>
    obtain ⟨key, value⟩ := entry
    have hkey := hown key value (List.mem_cons_self ..)
    have hvalue := hentries key value (List.mem_cons_self ..)
    have hrest : ∀ k v, (k, v) ∈ entries → Owns id (state.insert key ⟨value, some id⟩) k :=
      fun k v hkv => (hown k v (List.mem_cons_of_mem _ hkv)).insert _ _
    obtain ⟨state', hrun, htaint, hdata, hdone⟩ := ih
      (fun k v hkv => hentries k v (List.mem_cons_of_mem _ hkv)) hrest
    have hhead : state'.data key = value := by
      rcases hdata key with h | h
      · simpa using h
      · exact Option.some.inj (h.symm.trans hvalue)
    refine ⟨state', by rw [commitCache, commitEntry_eq hkey]; exact hrun, ?_, fun k => ?_, ?_⟩
    · rw [htaint, StateType.taint_insert, ← hkey, Function.update_eq_self]
    · by_cases hk : k = key
      · subst hk; exact Or.inr (hhead.symm ▸ hvalue)
      · simpa [hk] using hdata k
    · intro k v hkv
      rcases List.mem_cons.mp hkv with h | hkv
      · obtain ⟨rfl, rfl⟩ := Prod.mk.inj h
        exact hhead
      · exact hdone k v hkv

/-- **Committing a cache of owned keys panics nowhere, and overlays it on the
data**, in whatever order its entries come. -/
theorem commitCache_eq {id : ThreadId} (order : HashOrder) {cache : Cache} {state : StateMap}
    (hown : ∀ key, cache.lookup key ≠ none → Owns id state key) :
    ∃ state', commitCache id (order.entries cache) state = .ok state' ∧
      state'.taint = state.taint ∧
      state'.data = overlay (fun k => cache.lookup k) state.data := by
  have hentries : ∀ key value, (key, value) ∈ order.entries cache →
      cache.lookup key = some value := fun key value h => (order.mem_entries cache key value).mp h
  obtain ⟨state', hrun, htaint, hdata, hdone⟩ := commitCache_cases hentries
    (fun key value h => hown key (by simp [(order.mem_entries cache key value).mp h]))
  refine ⟨state', hrun, htaint, funext fun k => ?_⟩
  cases hk : cache.lookup k with
  | some value =>
    rw [overlay_of_some (c := fun k => cache.lookup k) hk]
    exact hdone k value ((order.mem_entries cache k value).mpr hk)
  | none =>
    rw [overlay_of_none (c := fun k => cache.lookup k) hk]
    exact (hdata k).resolve_right (by simp [hk])

end ConcurrentRuntime
end SonicChain
