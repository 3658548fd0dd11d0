import SonicChain.Rust
import Mathlib.Data.Finmap

/-! # The taintable state

The `state` crate: a map from keys to data, each entry with the thread that
owns it, if any.  `TaintState::read` and `TaintState::write` take the map's
lock twice: a read-lock section decides the common cases, and otherwise the
guard is dropped and a write-lock section looks again.  Each section is a
function here (`readSection`, `readRecheck`, …), so that other threads can be
scheduled between the two; `read`, `write` and `mutate` are the calls a thread
makes when nobody interferes.

`atomicRead` and `atomicWrite` are the operations as the interface documents
them.  Only the last section of a call matters: it acts as the atomic
operation does at that moment (`readSection_done`, `readRecheck_eq`, …).
-/

namespace SonicChain

/-- A value inserted into the state, with the taint associated with it. -/
structure StateValue (V T : Type) where
  data : V
  taint : Option T
  deriving DecidableEq, Repr

namespace StateValue
variable {V T : Type}

def new (value : V) (taint : T) : StateValue V T := ⟨value, some taint⟩

def newTaint [Inhabited V] (taint : T) : StateValue V T := ⟨default, some taint⟩

def newData (value : V) : StateValue V T := ⟨value, none⟩

end StateValue

/-- The inner map of the state. -/
abbrev StateType (K V T : Type) := Finmap fun _ : K => StateValue V T

namespace StateType
variable {K V T : Type} [DecidableEq K]

/-- The data under a key, an absent key counted as the default value. -/
def data [Inhabited V] (m : StateType K V T) (k : K) : V :=
  (m.lookup k).elim default StateValue.data

/-- The thread that owns a key, if any. -/
def taint (m : StateType K V T) (k : K) : Option T := (m.lookup k).bind StateValue.taint

/-- `HashMap::insert`. -/
def insert (m : StateType K V T) (k : K) (x : StateValue V T) : StateType K V T :=
  Finmap.insert k x m

theorem lookup_insert (m : StateType K V T) (k j : K) (x : StateValue V T) :
    (m.insert k x).lookup j = if j = k then some x else m.lookup j := by
  by_cases h : j = k
  · subst h; simp [insert]
  · simp [insert, Finmap.lookup_insert_of_ne m h, h]

@[simp] theorem mem_insert {m : StateType K V T} {k j : K} {x : StateValue V T} :
    j ∈ m.insert k x ↔ j = k ∨ j ∈ m := Finmap.mem_insert

@[simp] theorem data_insert [Inhabited V] (m : StateType K V T) (k : K) (x : StateValue V T) :
    (m.insert k x).data = Function.update m.data k x.data := by
  funext j
  by_cases h : j = k <;> simp [data, lookup_insert, h]

@[simp] theorem taint_insert (m : StateType K V T) (k : K) (x : StateValue V T) :
    (m.insert k x).taint = Function.update m.taint k x.taint := by
  funext j
  by_cases h : j = k <;> simp [taint, lookup_insert, h]

@[simp] theorem data_empty [Inhabited V] : (∅ : StateType K V T).data = fun _ => default := rfl

@[simp] theorem taint_empty : (∅ : StateType K V T).taint = fun _ => none := rfl

theorem data_of_lookup [Inhabited V] {m : StateType K V T} {k : K} {x : StateValue V T}
    (h : m.lookup k = some x) : m.data k = x.data := by simp [data, h]

theorem taint_of_lookup {m : StateType K V T} {k : K} {x : StateValue V T}
    (h : m.lookup k = some x) : m.taint k = x.taint := by simp [taint, h]

theorem data_of_absent [Inhabited V] {m : StateType K V T} {k : K} (h : m.lookup k = none) :
    m.data k = default := by simp [data, h]

theorem taint_of_absent {m : StateType K V T} {k : K} (h : m.lookup k = none) :
    m.taint k = none := by simp [taint, h]

/-- A tainted key has an entry. -/
theorem lookup_of_taint [Inhabited V] {m : StateType K V T} {k : K} {o : T}
    (h : m.taint k = some o) : m.lookup k = some ⟨m.data k, some o⟩ := by
  cases hk : m.lookup k with
  | none => rw [taint_of_absent hk] at h; cases h
  | some x =>
    rw [taint_of_lookup hk] at h
    rw [data_of_lookup hk, ← h]

/-- Equality of two state dumps, whatever the taints: every entry of the first
has its data in the second, and there are as many keys in both. -/
def stateEq [DecidableEq V] (self other : StateType K V T) : Bool :=
  decide (∀ k ∈ self.keys,
    (other.lookup k).map StateValue.data = (self.lookup k).map StateValue.data) &&
  self.keys.card == other.keys.card

theorem mem_keys_iff {m : StateType K V T} {k : K} : k ∈ m.keys ↔ m.lookup k ≠ none := by
  rw [Finmap.mem_keys, ne_eq, Finmap.lookup_eq_none, not_not]

/-- The comparison of the numbers of keys stands for the other direction: as many
keys, and all of the first map's among them. -/
theorem stateEq_iff_lookup [DecidableEq V] {a b : StateType K V T} : a.stateEq b = true ↔
    ∀ k, (a.lookup k).map StateValue.data = (b.lookup k).map StateValue.data := by
  rw [stateEq, Bool.and_eq_true, decide_eq_true_iff, beq_iff_eq]
  constructor
  · rintro ⟨hdata, hcard⟩ k
    by_cases hk : k ∈ a.keys
    · exact (hdata k hk).symm
    · have hsub : a.keys ⊆ b.keys := by
        intro j hj
        have hentry := hdata j hj
        rw [mem_keys_iff] at hj ⊢
        intro hnone
        obtain ⟨x, hx⟩ := Option.ne_none_iff_exists'.mp hj
        rw [hnone, hx] at hentry
        cases hentry
      have hsame : a.keys = b.keys := Finset.eq_of_subset_of_card_le hsub hcard.ge
      have hb : k ∉ b.keys := hsame ▸ hk
      rw [mem_keys_iff, not_not] at hk hb
      rw [hk, hb]
  · intro h
    have hkeys : a.keys = b.keys := by
      ext k
      rw [mem_keys_iff, mem_keys_iff, ← Option.isSome_iff_ne_none, ← Option.isSome_iff_ne_none,
        ← Option.isSome_map (f := StateValue.data), h k, Option.isSome_map]
    exact ⟨fun k _ => (h k).symm, congrArg Finset.card hkeys⟩

/-- Two maps with the same keys and data are equal to the comparison. -/
theorem stateEq_iff_data [DecidableEq V] [Inhabited V] {a b : StateType K V T} :
    a.stateEq b = true ↔ (∀ k, k ∈ a ↔ k ∈ b) ∧ a.data = b.data := by
  rw [stateEq_iff_lookup]
  constructor
  · intro h
    refine ⟨fun k => ?_, funext fun k => ?_⟩
    · rw [← Finmap.lookup_isSome, ← Finmap.lookup_isSome,
        ← Option.isSome_map (f := StateValue.data), h k, Option.isSome_map]
    · have hk := h k
      rw [data, data]
      cases ha : a.lookup k with
      | none =>
        rw [ha, Option.map_none] at hk
        rw [Option.map_eq_none_iff.mp hk.symm]
      | some x =>
        cases hb : b.lookup k with
        | none => rw [ha, hb] at hk; cases hk
        | some y =>
          rw [ha, hb] at hk
          exact Option.some.inj hk
  · rintro ⟨hkeys, hdata⟩ k
    have hmem := hkeys k
    rw [← Finmap.lookup_isSome, ← Finmap.lookup_isSome] at hmem
    have hk := congrFun hdata k
    rw [data, data] at hk
    cases ha : a.lookup k with
    | none =>
      cases hb : b.lookup k with
      | none => rfl
      | some y => rw [ha, hb] at hmem; simp at hmem
    | some x =>
      cases hb : b.lookup k with
      | none => rw [ha, hb] at hmem; simp at hmem
      | some y =>
        rw [ha, hb] at hk
        exact congrArg some hk

/-- **The comparison decides equality up to taint**: the same keys, and the same data
under each.  So it is an equivalence. -/
theorem stateEq_decides [DecidableEq V] :
    (∀ a b : StateType K V T, a.stateEq b = true ↔ (∀ k, k ∈ a ↔ k ∈ b) ∧
      ∀ k x y, a.lookup k = some x → b.lookup k = some y → x.data = y.data) ∧
    Equivalence fun a b : StateType K V T => a.stateEq b = true := by
  refine ⟨fun a b => ?_, fun a => ?_, fun h => ?_, fun h h' => ?_⟩
  · rw [stateEq_iff_lookup]
    constructor
    · intro h
      refine ⟨fun k => ?_, fun k x y hx hy => ?_⟩
      · rw [← Finmap.lookup_isSome, ← Finmap.lookup_isSome,
          ← Option.isSome_map (f := StateValue.data), h k, Option.isSome_map]
      · have hk := h k
        rw [hx, hy] at hk
        exact Option.some.inj hk
    · rintro ⟨hkeys, hdata⟩ k
      have hmem := hkeys k
      rw [← Finmap.lookup_isSome, ← Finmap.lookup_isSome] at hmem
      cases ha : a.lookup k with
      | none =>
        cases hb : b.lookup k with
        | none => rfl
        | some y => rw [ha, hb] at hmem; simp at hmem
      | some x =>
        cases hb : b.lookup k with
        | none => rw [ha, hb] at hmem; simp at hmem
        | some y => exact congrArg some (hdata k x y ha hb)
  · exact stateEq_iff_lookup.mpr fun _ => rfl
  · exact stateEq_iff_lookup.mpr fun k => (stateEq_iff_lookup.mp h k).symm
  · exact stateEq_iff_lookup.mpr fun k =>
      (stateEq_iff_lookup.mp h k).trans (stateEq_iff_lookup.mp h' k)

end StateType

/-! ## The operations of `TaintState` -/

namespace TaintState
variable {K V T : Type} [DecidableEq K]

/-- Insert with no respect for the tainting of the key. -/
def unsafeInsert (m : StateType K V T) (key : K) (value : StateValue V T) : StateType K V T :=
  m.insert key value

/-- Taint a key with no respect for its owner; the data is wiped. -/
def unsafeTaint [Inhabited V] (m : StateType K V T) (key : K) (taint : T) : StateType K V T :=
  m.insert key (.newTaint taint)

/-- Insert a value, wiping away the taint. -/
def unsafeInsertGenesisValue (m : StateType K V T) (key : K) (value : V) : StateType K V T :=
  m.insert key (.newData value)

def unsafeReadValue (m : StateType K V T) (key : K) : Option V :=
  (m.lookup key).map StateValue.data

def unsafeReadTaint (m : StateType K V T) (key : K) : Option T :=
  (m.lookup key).bind StateValue.taint

def unsafeClean (_ : StateType K V T) : StateType K V T := ∅

variable [DecidableEq T]

/-- Where a `read` or `write` stands once its read-lock section has dropped the
guard without an answer: it found an entry without taint, or no entry. -/
inductive Recheck where
  | untainted
  | absent
  deriving DecidableEq, Repr

/-- The read-lock section of `read`. -/
def readSection (m : StateType K V T) (key : K) (current : T) : Recheck ⊕ Except T V :=
  match m.lookup key with
  | some entry =>
    match entry.taint with
    | some owner => .inr (if owner = current then .ok entry.data else .error owner)
    | none => .inl .untainted
  | none => .inl .absent

/-- The write-lock section of `read`. -/
def readRecheck [Inhabited V] (branch : Recheck) (m : StateType K V T) (key : K) (current : T) :
    Except Panic (Except T V × StateType K V T) :=
  match branch, m.lookup key with
  | .untainted, some entry =>
    match entry.taint with
    | some owner =>
      if owner = current then .error (.message "Current thread cannot be the owner.")
      else .ok (.error owner, m)
    | none => .ok (.ok entry.data, m.insert key { entry with taint := some current })
  | .untainted, none => .error (.expect "Entry has been already checked to exist.")
  | .absent, some entry =>
    match entry.taint with
    | some owner =>
      if owner = current then .error (.message "Current thread cannot be the owner.")
      else .ok (.error owner, m)
    | none => .error (.expect "Newly created entry at runtime MUST have a taint.")
  | .absent, none => .ok (.ok default, m.insert key (.newTaint current))

/-- The read-lock section of `write`; the owner of an entry writes in place. -/
def writeSection (m : StateType K V T) (key : K) (value : V) (current : T) :
    Recheck ⊕ (Except T Unit × StateType K V T) :=
  match m.lookup key with
  | some entry =>
    match entry.taint with
    | some owner =>
      .inr (if owner = current then (.ok (), m.insert key { entry with data := value })
        else (.error owner, m))
    | none => .inl .untainted
  | none => .inl .absent

/-- The write-lock section of `write`. -/
def writeRecheck (branch : Recheck) (m : StateType K V T) (key : K) (value : V) (current : T) :
    Except Panic (Except T Unit × StateType K V T) :=
  match branch, m.lookup key with
  | .untainted, some entry =>
    match entry.taint with
    | some owner =>
      if owner = current then .error (.message "Current thread cannot be the owner.")
      else .ok (.error owner, m)
    | none => .ok (.ok (), m.insert key ⟨value, some current⟩)
  | .untainted, none => .error (.expect "Entry has been already checked to exist.")
  | .absent, some entry =>
    match entry.taint with
    | some owner =>
      if owner = current then .error (.message "Current thread cannot be the owner.")
      else .ok (.error owner, m)
    | none => .error (.expect "Newly created entry at runtime MUST have a taint.")
  | .absent, none => .ok (.ok (), m.insert key (.new value current))

/-- `read`, with no other thread between its two sections. -/
def read [Inhabited V] (m : StateType K V T) (key : K) (current : T) :
    Except Panic (Except T V × StateType K V T) :=
  match readSection m key current with
  | .inr outcome => .ok (outcome, m)
  | .inl branch => readRecheck branch m key current

/-- `write`, with no other thread between its two sections. -/
def write (m : StateType K V T) (key : K) (value : V) (current : T) :
    Except Panic (Except T Unit × StateType K V T) :=
  match writeSection m key value current with
  | .inr outcome => .ok outcome
  | .inl branch => writeRecheck branch m key value current

/-- `GenericState::mutate`: a `read`, then a `write` of the updated value. -/
def mutate [Inhabited V] (m : StateType K V T) (key : K) (update : V → V) (current : T) :
    Except Panic (Except T Unit × StateType K V T) :=
  match read m key current with
  | .ok (.ok value, m') => write m' key (update value) current
  | .ok (.error owner, m') => .ok (.error owner, m')
  | .error p => .error p

/-! ## The documented, atomic operations -/

/-- `read` as documented: a key that nobody owns is tainted; the value is
returned to its owner, the owner to everybody else. -/
def atomicRead [Inhabited V] (m : StateType K V T) (key : K) (current : T) :
    Except T V × StateType K V T :=
  match m.taint key with
  | some owner => (if owner = current then .ok (m.data key) else .error owner, m)
  | none => (.ok (m.data key), m.insert key ⟨m.data key, some current⟩)

/-- `write` as documented: as `atomicRead`, but the value is replaced. -/
def atomicWrite (m : StateType K V T) (key : K) (value : V) (current : T) :
    Except T Unit × StateType K V T :=
  match m.taint key with
  | some owner =>
    if owner = current then (.ok (), m.insert key ⟨value, some current⟩) else (.error owner, m)
  | none => (.ok (), m.insert key ⟨value, some current⟩)

theorem readSection_done [Inhabited V] {m : StateType K V T} {key : K} {current : T}
    {outcome : Except T V} (h : readSection m key current = .inr outcome) :
    atomicRead m key current = (outcome, m) := by
  unfold readSection at h
  split at h
  · rename_i entry hk
    split at h
    · rename_i owner ht
      cases h
      simp only [atomicRead, StateType.taint_of_lookup hk, StateType.data_of_lookup hk, ht]
    · cases h
  · cases h

theorem writeSection_done {m m' : StateType K V T} {key : K} {value : V}
    {current : T} {outcome : Except T Unit}
    (h : writeSection m key value current = .inr (outcome, m')) :
    atomicWrite m key value current = (outcome, m') := by
  unfold writeSection at h
  split at h
  · rename_i entry hk
    split at h
    · rename_i owner ht
      simp only [atomicWrite, StateType.taint_of_lookup hk, ht]
      by_cases ho : owner = current
      · subst ho
        simp only [↓reduceIte, Sum.inr.injEq, Prod.mk.injEq] at h ⊢
        obtain ⟨rfl, rfl⟩ := h
        exact ⟨rfl, by rw [ht]⟩
      · simp only [ho, ↓reduceIte, Sum.inr.injEq] at h ⊢
        exact h
    · cases h
  · cases h

/-- What a thread between its two sections may rely on: the key's entry is
still there if it was found, a new entry has an owner, and the owner, if any,
is another thread.  Nothing others do invalidates it. -/
structure Recheck.Pending (branch : Recheck) (m : StateType K V T) (key : K) (current : T) :
    Prop where
  present : branch = .untainted → m.lookup key ≠ none
  created : branch = .absent → m.lookup key ≠ none → m.taint key ≠ none
  foreign : m.taint key ≠ some current

theorem Recheck.Pending.of_readSection {m : StateType K V T} {key : K} {current : T}
    {branch : Recheck} (h : readSection m key current = .inl branch) :
    branch.Pending m key current := by
  unfold readSection at h
  split at h
  · rename_i entry hk
    split at h
    · cases h
    · rename_i ht
      cases h
      exact ⟨by simp [hk], nofun, by simp [StateType.taint_of_lookup hk, ht]⟩
  · rename_i hk
    cases h
    exact ⟨nofun, fun _ hn => absurd hk hn, by simp [StateType.taint_of_absent hk]⟩

theorem Recheck.Pending.of_writeSection {m : StateType K V T} {key : K} {value : V} {current : T}
    {branch : Recheck} (h : writeSection m key value current = .inl branch) :
    branch.Pending m key current := by
  unfold writeSection at h
  split at h
  · rename_i entry hk
    split at h
    · cases h
    · rename_i ht
      cases h
      exact ⟨by simp [hk], nofun, by simp [StateType.taint_of_lookup hk, ht]⟩
  · rename_i hk
    cases h
    exact ⟨nofun, fun _ hn => absurd hk hn, by simp [StateType.taint_of_absent hk]⟩

omit [DecidableEq T] in
/-- An entry that is there keeps a pending thread pending, as long as it does
not go to that thread. -/
theorem Recheck.Pending.insert {branch : Recheck} {m : StateType K V T} {key : K} {current : T}
    (h : branch.Pending m key current) (k : K) {x : StateValue V T} (hx : x.taint ≠ none)
    (hne : x.taint ≠ some current) : branch.Pending (m.insert k x) key current := by
  by_cases hk : key = k
  · subst hk
    refine ⟨fun _ => ?_, fun _ _ => ?_, ?_⟩
    · simp [StateType.lookup_insert]
    · simpa using hx
    · simpa using hne
  · refine ⟨fun hb => ?_, fun hb hn => ?_, ?_⟩
    · rw [StateType.lookup_insert]; simpa [hk] using h.present hb
    · rw [StateType.lookup_insert] at hn
      simpa [hk] using h.created hb (by simpa [hk] using hn)
    · simpa [hk] using h.foreign

/-- **The write-lock section of `read` is the atomic operation**; its panics are
out of reach. -/
theorem readRecheck_eq [Inhabited V] {branch : Recheck} {m : StateType K V T} {key : K}
    {current : T} (h : branch.Pending m key current) :
    readRecheck branch m key current = .ok (atomicRead m key current) := by
  cases hk : m.lookup key with
  | none =>
    cases branch with
    | untainted => exact absurd hk (h.present rfl)
    | absent =>
      simp [readRecheck, hk, atomicRead, StateType.taint_of_absent hk, StateType.data_of_absent hk,
        StateValue.newTaint]
  | some entry =>
    have ht := StateType.taint_of_lookup hk
    have hd := StateType.data_of_lookup hk
    cases he : entry.taint with
    | none =>
      cases branch with
      | untainted => simp [readRecheck, hk, he, atomicRead, ht, hd]
      | absent => exact absurd (ht.trans he) (h.created rfl (by simp [hk]))
    | some owner =>
      have ho : owner ≠ current := fun e => h.foreign (by rw [ht, he, e])
      cases branch <;> simp [readRecheck, hk, he, atomicRead, ht, ho]

/-- **The write-lock section of `write` is the atomic operation**; its panics
are out of reach. -/
theorem writeRecheck_eq {branch : Recheck} {m : StateType K V T} {key : K}
    {value : V} {current : T} (h : branch.Pending m key current) :
    writeRecheck branch m key value current = .ok (atomicWrite m key value current) := by
  cases hk : m.lookup key with
  | none =>
    cases branch with
    | untainted => exact absurd hk (h.present rfl)
    | absent =>
      simp [writeRecheck, hk, atomicWrite, StateType.taint_of_absent hk, StateValue.new]
  | some entry =>
    have ht := StateType.taint_of_lookup hk
    cases he : entry.taint with
    | none =>
      cases branch with
      | untainted => simp [writeRecheck, hk, he, atomicWrite, ht]
      | absent => exact absurd (ht.trans he) (h.created rfl (by simp [hk]))
    | some owner =>
      have ho : owner ≠ current := fun e => h.foreign (by rw [ht, he, e])
      cases branch <;> simp [writeRecheck, hk, he, atomicWrite, ht, ho]

/-- A call that nobody interferes with is the atomic operation. -/
theorem read_eq [Inhabited V] (m : StateType K V T) (key : K) (current : T) :
    read m key current = .ok (atomicRead m key current) := by
  unfold read
  split
  · rename_i outcome h
    rw [readSection_done h]
  · rename_i branch h
    exact readRecheck_eq (.of_readSection h)

theorem write_eq (m : StateType K V T) (key : K) (value : V) (current : T) :
    write m key value current = .ok (atomicWrite m key value current) := by
  unfold write
  split
  · rename_i outcome h
    have h : writeSection m key value current = .inr (outcome.1, outcome.2) := h
    rw [writeSection_done h]
  · rename_i branch h
    exact writeRecheck_eq (.of_writeSection h)

end TaintState
end SonicChain
