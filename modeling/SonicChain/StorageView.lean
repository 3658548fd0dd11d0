import SonicChain.RuntimeAgreement
import SonicChain.TypedStorage

/-! # The typed view of the byte store

The storage maps, used through either runtime, behave as one typed store: a
value for every map and account, which writing replaces there and nowhere else
(`TypedStore`).  `Represents` relates the bytes to the typed store; each
operation keeps it and replies as the typed store does (`StorageOp.run_eq`), and
so do sequences of operations (`typed_storage_faithful`).
-/

namespace SonicChain
open StoreProgram

/-- The storage maps of the modules. -/
inductive MapName where
  | balanceOf
  | ledgerOf
  | bonded
  | nominations
  deriving DecidableEq

section
variable [Ed25519]

namespace MapName

/-- What the map has for each account. -/
def Entry : MapName → Type
  | .balanceOf => AccountBalance
  | .ledgerOf => StakingLedger
  | .bonded => AccountId
  | .nominations => List AccountId

instance : ∀ m : MapName, Codec m.Entry
  | .balanceOf => inferInstanceAs (Codec AccountBalance)
  | .ledgerOf => inferInstanceAs (Codec StakingLedger)
  | .bonded => inferInstanceAs (Codec AccountId)
  | .nominations => inferInstanceAs (Codec (List AccountId))

instance : ∀ m : MapName, Inhabited m.Entry
  | .balanceOf => inferInstanceAs (Inhabited AccountBalance)
  | .ledgerOf => inferInstanceAs (Inhabited StakingLedger)
  | .bonded => inferInstanceAs (Inhabited AccountId)
  | .nominations => inferInstanceAs (Inhabited (List AccountId))

instance : ∀ m : MapName, DecidableEq m.Entry
  | .balanceOf => inferInstanceAs (DecidableEq AccountBalance)
  | .ledgerOf => inferInstanceAs (DecidableEq StakingLedger)
  | .bonded => inferInstanceAs (DecidableEq AccountId)
  | .nominations => inferInstanceAs (DecidableEq (List AccountId))

instance : ∀ m : MapName, LawfulCodec m.Entry
  | .balanceOf => inferInstanceAs (LawfulCodec AccountBalance)
  | .ledgerOf => inferInstanceAs (LawfulCodec StakingLedger)
  | .bonded => inferInstanceAs (LawfulCodec AccountId)
  | .nominations => inferInstanceAs (LawfulCodec (List AccountId))

def map : (m : MapName) → StorageMap m.Entry
  | .balanceOf => SonicChain.balanceOf
  | .ledgerOf => SonicChain.ledgerOf
  | .bonded => SonicChain.bonded
  | .nominations => SonicChain.nominations

/-- No two maps share a prefix. -/
theorem keyPrefix_ne {m m' : MapName} (h : m ≠ m') : m.map.keyPrefix ≠ m'.map.keyPrefix := by
  cases m <;> cases m' <;> first
    | exact absurd rfl h
    | exact balanceOf_ledgerOf
    | exact balanceOf_bonded
    | exact balanceOf_nominations
    | exact ledgerOf_bonded
    | exact ledgerOf_nominations
    | exact bonded_nominations
    | exact balanceOf_ledgerOf.symm
    | exact balanceOf_bonded.symm
    | exact balanceOf_nominations.symm
    | exact ledgerOf_bonded.symm
    | exact ledgerOf_nominations.symm
    | exact bonded_nominations.symm

/-- What is stored under absent keys decodes to the default. -/
theorem get_empty (m : MapName) (a : AccountId) :
    m.map.get (fun _ => default) a = .ok default := by
  cases m <;> rfl

end MapName

/-! ## The typed store -/

/-- A value for every map and account. -/
abbrev TypedStore : Type := (m : MapName) → AccountId → m.Entry

/-- Code over the typed store. -/
abbrev Typed := StateT TypedStore (Except Panic)

namespace TypedStore

/-- Nothing has been written. -/
def empty : TypedStore := fun _ _ => default

def set (store : TypedStore) (m : MapName) (a : AccountId) (v : m.Entry) : TypedStore :=
  Function.update store m (Function.update (store m) a v)

theorem set_self (store : TypedStore) (m : MapName) (a : AccountId) (v : m.Entry) :
    store.set m a v m a = v := by
  rw [set, Function.update_self, Function.update_self]

/-- Every other map and account keeps its value. -/
theorem set_other (store : TypedStore) {m m' : MapName} {a a' : AccountId} (v : m.Entry)
    (h : m' ≠ m ∨ a' ≠ a) : store.set m a v m' a' = store m' a' := by
  by_cases hm : m' = m
  · subst hm
    rw [set, Function.update_self, Function.update_of_ne (h.resolve_left fun hne => hne rfl)]
  · rw [set, Function.update_of_ne hm]

def read (m : MapName) (a : AccountId) : Typed m.Entry := fun store => .ok (store m a, store)

/-- A vector of more elements than its encoding counts is not written: encoding
it panics. -/
def write (m : MapName) (a : AccountId) (v : m.Entry) : Typed Unit := fun store =>
  match (Codec.encode v : Except Panic Value) with
  | .ok _ => .ok ((), store.set m a v)
  | .error why => .error why

def mutate (m : MapName) (a : AccountId) (update : m.Entry → Except Panic m.Entry) :
    Typed Unit := do
  let old ← read m a
  write m a (← StateT.lift (update old))

def clear (m : MapName) (a : AccountId) : Typed Unit := write m a default

def «exists» (m : MapName) (a : AccountId) : Typed Bool := do
  return decide ((← read m a) ≠ default)

end TypedStore

/-- The operations of the storage maps.  The closure given to `mutate` may panic. -/
inductive StorageOp where
  | write (m : MapName) (a : AccountId) (v : m.Entry)
  | mutate (m : MapName) (a : AccountId) (update : m.Entry → Except Panic m.Entry)
  | clear (m : MapName) (a : AccountId)
  | read (m : MapName) (a : AccountId)
  | exists (m : MapName) (a : AccountId)

/-- What an operation returns. -/
inductive Reply where
  | done
  | value (m : MapName) (v : m.Entry)
  | found (b : Bool)

namespace StorageOp

/-- What the operation does to the typed store. -/
def specify : StorageOp → Typed Reply
  | .write m a v => do TypedStore.write m a v; return .done
  | .mutate m a update => do TypedStore.mutate m a update; return .done
  | .clear m a => do TypedStore.clear m a; return .done
  | .read m a => do return .value m (← TypedStore.read m a)
  | .exists m a => do return .found (← TypedStore.exists m a)

def specifyAll : List StorageOp → Typed (List Reply)
  | [] => return []
  | op :: ops => do
    let reply ← op.specify
    return reply :: (← specifyAll ops)

/-- The operation as code over the storage of a runtime. -/
def code : StorageOp → ExceptT ThreadId Storage Reply
  | .write m a v => do m.map.write a v; return .done
  | .mutate m a update => do m.map.mutate a update; return .done
  | .clear m a => do m.map.clear a; return .done
  | .read m a => do return .value m (← m.map.read a)
  | .exists m a => do return .found (← m.map.exists a)

def codeAll : List StorageOp → ExceptT ThreadId Storage (List Reply)
  | [] => return []
  | op :: ops => do
    let reply ← op.code
    return reply :: (← codeAll ops)

/-- The key that the operation uses. -/
def key : StorageOp → Key
  | .write m a _ | .mutate m a _ | .clear m a | .read m a | .exists m a => m.map.keyFor a

end StorageOp

/-! ## The bytes represent the typed store -/

/-- Every map reads as the typed store has it. -/
def Represents (d : Data) (store : TypedStore) : Prop :=
  ∀ (m : MapName) (a : AccountId), m.map.get d a = .ok (store m a)

theorem represents_empty : Represents (fun _ => default) TypedStore.empty :=
  fun m a => m.get_empty a

theorem Represents.put {d : Data} {store : TypedStore} (h : Represents d store) {m : MapName}
    (a : AccountId) {v : m.Entry} {bytes : Value} (hv : Codec.encode v = .ok bytes) :
    Represents (m.map.put d a bytes) (store.set m a v) := by
  intro m' a'
  by_cases hm : m' = m
  · subst hm
    by_cases ha : a' = a
    · subst ha
      rw [m'.map.get_put_self d a' hv, store.set_self]
    · rw [StorageMap.get_put_of_ne (.inr ha), store.set_other v (.inr ha)]
      exact h m' a'
  · rw [StorageMap.get_put_of_ne (.inl (MapName.keyPrefix_ne hm)), store.set_other v (.inl hm)]
    exact h m' a'

/-- Code over the bytes does what code over the typed store does: it returns the
same and leaves bytes that represent what that leaves, or panics alike. -/
def Simulates {A : Type} (p : ExceptT ThreadId Storage A) (q : Typed A) : Prop :=
  ∀ d store, Represents d store →
    match q.run store with
    | .ok (a, store') => ∃ d', p.run.run d = .ok (.ok a, d') ∧ Represents d' store'
    | .error why => p.run.run d = .error why

namespace Simulates
variable {A B : Type}

theorem pure (a : A) : Simulates (pure a) (pure a) := fun d _ h => ⟨d, rfl, h⟩

theorem bind {p : ExceptT ThreadId Storage A} {q : Typed A} {f : A → ExceptT ThreadId Storage B}
    {g : A → Typed B} (h : Simulates p q) (hnext : ∀ a, Simulates (f a) (g a)) :
    Simulates (p >>= f) (q >>= g) := by
  intro d store hd
  have hp := h d store hd
  rw [StateT.run_bind, run_bindT]
  match hq : q.run store with
  | .ok (a, store') =>
    rw [hq] at hp
    obtain ⟨d', hrun, hd'⟩ := hp
    rw [hrun]
    exact hnext a d' store' hd'
  | .error why =>
    rw [hq] at hp
    rw [hp]
    rfl

theorem read (m : MapName) (a : AccountId) : Simulates (m.map.read a) (TypedStore.read m a) := by
  intro d store h
  exact ⟨d, by rw [StorageMap.run_read, h m a], h⟩

theorem write (m : MapName) (a : AccountId) (v : m.Entry) :
    Simulates (m.map.write a v) (TypedStore.write m a v) := by
  intro d store h
  rw [StorageMap.run_write]
  have hspec : (TypedStore.write m a v).run store =
      match (Codec.encode v : Except Panic Value) with
      | .ok _ => .ok ((), store.set m a v)
      | .error why => .error why := rfl
  rw [hspec]
  cases hv : (Codec.encode v : Except Panic Value) with
  | ok bytes => exact ⟨_, rfl, h.put a hv⟩
  | error why => rfl

theorem orPanic (r : Except Panic A) : Simulates (orPanic r) (StateT.lift r) := by
  intro d store h
  cases r with
  | ok a => exact ⟨d, rfl, h⟩
  | error why => rfl

theorem mutate (m : MapName) (a : AccountId) (update : m.Entry → Except Panic m.Entry) :
    Simulates (m.map.mutate a update) (TypedStore.mutate m a update) :=
  (read m a).bind fun old => (orPanic (update old)).bind fun new => write m a new

theorem clear (m : MapName) (a : AccountId) : Simulates (m.map.clear a) (TypedStore.clear m a) :=
  write m a default

theorem «exists» (m : MapName) (a : AccountId) :
    Simulates (m.map.exists a) (TypedStore.exists m a) :=
  (read m a).bind fun _ => pure _

end Simulates

namespace StorageOp

/-- Every operation does to the bytes what it does to the typed store. -/
theorem simulates (op : StorageOp) : Simulates op.code op.specify := by
  cases op with
  | write m a v => exact (Simulates.write m a v).bind fun _ => .pure _
  | mutate m a update => exact (Simulates.mutate m a update).bind fun _ => .pure _
  | clear m a => exact (Simulates.clear m a).bind fun _ => .pure _
  | read m a => exact (Simulates.read m a).bind fun _ => .pure _
  | «exists» m a => exact (Simulates.exists m a).bind fun _ => .pure _

theorem simulates_all (ops : List StorageOp) : Simulates (codeAll ops) (specifyAll ops) := by
  induction ops with
  | nil => exact .pure _
  | cons op ops ih => exact op.simulates.bind fun _ => ih.bind fun _ => .pure _

end StorageOp
/-! ## Through the runtimes -/

namespace ConcurrentRuntime
variable {A : Type} {id : ThreadId} {cache : Cache} {state : StateMap}

/-- Nobody else owns the key. -/
def Free (id : ThreadId) (state : StateMap) (key : Key) : Prop :=
  state.taint key = none ∨ Owns id state key

omit [Ed25519] in
/-- A read of a free key is granted, and makes the key the reader's. -/
theorem read_granted {key : Key} (hown : ∀ k, cache.lookup k ≠ none → Owns id state k)
    (hfree : Free id state key) :
    ∃ state', read id cache state key =
        .ok (.ok (overlay (fun k => cache.lookup k) state.data key), state') ∧
      state'.data = state.data ∧ Owns id state' key ∧
      (∀ k, Owns id state k → Owns id state' k) ∧ ∀ k, Free id state k → Free id state' k := by
  rcases read_cases (hown key) with ⟨state', hread, hdata, htaint, -⟩ | ⟨owner, hne, howner, -⟩
  · have hkey : Owns id state' key := by simp [Owns, htaint]
    refine ⟨state', hread, hdata, hkey, fun k hk => ?_, fun k hk => ?_⟩
    · by_cases hsame : k = key
      · exact hsame ▸ hkey
      · simpa [Owns, htaint, hsame] using hk
    · by_cases hsame : k = key
      · exact .inr (hsame ▸ hkey)
      · simpa [Free, Owns, htaint, hsame] using hk
  · rcases hfree with hnone | howns
    · rw [hnone] at howner; cases howner
    · exact absurd (Option.some.inj (howner.symm.trans howns)) hne

omit [Ed25519] in
/-- **Code that is refused no key does over the cache what it does alone** on the
data seen through it. -/
theorem run_granted {code : Storage A} (hown : ∀ k, cache.lookup k ≠ none → Owns id state k)
    (hfree : ∀ k ∈ code.touched (overlay (fun k => cache.lookup k) state.data), Free id state k) :
    match code.run (overlay (fun k => cache.lookup k) state.data) with
    | .ok (a, d) => ∃ cache' state', run id code cache state = .ok (a, cache', state') ∧
      overlay (fun k => cache'.lookup k) state'.data = d
    | .error why => run id code cache state = .error why := by
  induction code generalizing cache state with
  | done a => exact ⟨cache, state, rfl, rfl⟩
  | fault why => rfl
  | read key next ih =>
    obtain ⟨state', hread, hdata, -, howns, hfrees⟩ :=
      read_granted hown (hfree key (List.mem_cons_self ..))
    have hown' : ∀ k, cache.lookup k ≠ none → Owns id state' k := fun k hk => howns k (hown k hk)
    have hrest := ih (.ok (overlay (fun k => cache.lookup k) state.data key)) hown' (by
      rw [hdata]
      exact fun k hk => hfrees k (hfree k (List.mem_cons_of_mem _ hk)))
    rw [hdata] at hrest
    rw [StoreProgram.run, run, hread]
    exact hrest
  | write key value next ih =>
    obtain ⟨state', hread, hdata, hkey, howns, hfrees⟩ :=
      read_granted hown (hfree key (List.mem_cons_self ..))
    have hview : overlay (fun k => (cache.insert key value).lookup k) state'.data =
        Function.update (overlay (fun k => cache.lookup k) state.data) key value := by
      rw [Cache.lookup_insert, overlay_update, hdata]
    have hown' : ∀ k, (cache.insert key value).lookup k ≠ none → Owns id state' k := by
      intro k hk
      by_cases hsame : k = key
      · exact hsame ▸ hkey
      · rw [Finmap.lookup_insert_of_ne cache hsame] at hk
        exact howns k (hown k hk)
    have hrest := ih (.ok ()) hown' (by
      rw [hview]
      exact fun k hk => hfrees k (hfree k (List.mem_cons_of_mem _ hk)))
    rw [hview] at hrest
    rw [StoreProgram.run, run, write, hread]
    exact hrest

end ConcurrentRuntime

namespace StorageOp

/-- The operations use the keys of their maps and accounts only. -/
theorem within_codeAll (ops : List StorageOp) :
    Within (fun k => ∃ op ∈ ops, k = op.key) (codeAll ops).run := by
  have within_code : ∀ {S : Key → Prop} (op : StorageOp), S op.key → Within S op.code.run := by
    intro S op hS
    cases op with
    | write m a v => exact Within.bindT (m.map.within_write a v hS) fun _ => trivial
    | mutate m a update => exact Within.bindT (m.map.within_mutate a update hS) fun _ => trivial
    | clear m a => exact Within.bindT (m.map.within_write a default hS) fun _ => trivial
    | read m a => exact Within.bindT (m.map.within_read a hS) fun _ => trivial
    | «exists» m a => exact Within.bindT (m.map.within_exists a hS) fun _ => trivial
  suffices key : ∀ {S : Key → Prop} (ops : List StorageOp), (∀ op ∈ ops, S op.key) →
      Within S (codeAll ops).run from key ops fun op hop => ⟨op, hop, rfl⟩
  intro S ops hS
  induction ops with
  | nil => trivial
  | cons op ops ih =>
    refine Within.bindT (within_code op (hS op (List.mem_cons_self ..))) fun _ => ?_
    exact Within.bindT (ih fun op hop => hS op (List.mem_cons_of_mem _ hop)) fun _ => trivial

end StorageOp

open StorageOp

/-- **Typed storage is a faithful view of the byte store.**  Through the
sequential runtime, starting from no entries, any operations on the storage maps
reply, and leave the maps, as in the typed store, where a write changes the value
of that map and account only and everything unwritten is the default; and panic
where it does.  So they do through a concurrent runtime within one dispatch, over
a state without data, where no other thread owns a key they use; the cache is then
part of what is read. -/
theorem typed_storage_faithful (ops : List StorageOp) :
    (match (specifyAll ops).run .empty with
      | .ok (replies, store) => ∃ state', SequentialRuntime.run (codeAll ops).run ∅ =
          .ok (.ok replies, state') ∧ Represents state'.data store
      | .error why => SequentialRuntime.run (codeAll ops).run ∅ = .error why) ∧
    ∀ (id : ThreadId) (state : StateMap), state.data = (fun _ => default) →
      (∀ op ∈ ops, state.taint op.key = none ∨ state.taint op.key = some id) →
      match (specifyAll ops).run .empty with
      | .ok (replies, store) => ∃ cache state', ConcurrentRuntime.run id (codeAll ops).run ∅ state =
          .ok (.ok replies, cache, state') ∧
            Represents (overlay (fun k => cache.lookup k) state'.data) store
      | .error why => ConcurrentRuntime.run id (codeAll ops).run ∅ state = .error why := by
  have hspec := simulates_all ops (∅ : StateMap).data .empty represents_empty
  refine ⟨?_, fun id state hdata hfree => ?_⟩
  · match hrun : (specifyAll ops).run .empty with
    | .ok (replies, store) =>
      rw [hrun] at hspec
      obtain ⟨d', hcode, hd'⟩ := hspec
      obtain ⟨state', hseq, rfl, -⟩ := SequentialRuntime.run_of_ok hcode
      exact ⟨state', hseq, hd'⟩
    | .error why =>
      rw [hrun] at hspec
      exact SequentialRuntime.run_of_error hspec
  · have hempty : ∀ k, (∅ : Cache).lookup k ≠ none → ConcurrentRuntime.Owns id state k :=
      fun k hk => absurd (Finmap.lookup_empty k) hk
    have hgranted := ConcurrentRuntime.run_granted hempty fun k hk => by
      obtain ⟨op, hop, rfl⟩ := (within_codeAll ops).touched _ k hk
      exact hfree op hop
    have hview : overlay (fun k => (∅ : Cache).lookup k) state.data = (∅ : StateMap).data := by
      rw [hdata]
      rfl
    rw [hview] at hgranted
    match hrun : (specifyAll ops).run .empty with
    | .ok (replies, store) =>
      rw [hrun] at hspec
      obtain ⟨d', hcode, hd'⟩ := hspec
      rw [hcode] at hgranted
      obtain ⟨cache, state', hconc, rfl⟩ := hgranted
      exact ⟨cache, state', hconc, hd'⟩
    | .error why =>
      rw [hrun] at hspec
      rw [hspec] at hgranted
      exact hgranted

end

section
open Testing StorageOp

/-- Alice nominates and reads it back, beside a key that another thread owns. -/
theorem typed_storage_faithful_nominations :
    ∃ store cache state',
      ConcurrentRuntime.run 1 (codeAll [.write .nominations alice [bob, dave],
          .read .nominations alice, .clear .bonded alice, .exists .bonded alice]).run ∅
        ((∅ : StateMap).insert (balanceOf.keyFor alice) ⟨default, some 2⟩) =
          .ok (.ok [.done, .value .nominations [bob, dave], .done, .found false], cache, state') ∧
      Represents (overlay (fun k => cache.lookup k) state'.data) store := by
  have hspec : ∃ store, (specifyAll [.write .nominations alice [bob, dave],
      .read .nominations alice, .clear .bonded alice, .exists .bonded alice]).run .empty =
        .ok ([.done, .value .nominations [bob, dave], .done, .found false], store) := ⟨_, rfl⟩
  obtain ⟨store, hspec⟩ := hspec
  have hview := (typed_storage_faithful [.write .nominations alice [bob, dave],
      .read .nominations alice, .clear .bonded alice, .exists .bonded alice]).2 1
    ((∅ : StateMap).insert (balanceOf.keyFor alice) ⟨default, some 2⟩) (by
      rw [StateType.data_insert, StateType.data_empty, Function.update_eq_self]) (by
      decide +kernel)
  rw [hspec] at hview
  obtain ⟨cache, state', hrun, hrepresents⟩ := hview
  exact ⟨store, cache, state', hrun, hrepresents⟩

end
end SonicChain
