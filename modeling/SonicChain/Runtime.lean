import SonicChain.CachedRun
import SonicChain.Primitives

/-! # Storage operations and dispatch results

The bodies of the calls are written against `ModuleRuntime`: they read and write
storage through whatever runtime they are given, and each operation may be
refused by the owner of the key.  Here such a body is a `StoreProgram`, which a
runtime then executes.

A storage map (`decl_storage_map!`) keeps one value per account, encoded under
the key `module:storage_name` followed by the account.  At the end of the file
are the disciplines of the storage operations, from which those of the calls
are composed.
-/

namespace SonicChain

/-- The error types returned from a dispatch function. -/
inductive DispatchError where
  | tainted (owner : ThreadId) (orphan : Bool)
  | logicError (why : String)
  deriving DecidableEq, Repr

inductive RuntimeDispatchSuccess where
  | ok
  | logicError (why : String)
  deriving DecidableEq, Repr

inductive RuntimeDispatchError where
  | tainted (owner : ThreadId) (orphan : Bool)
  deriving DecidableEq, Repr

/-- The final result of a dispatch: a logical error is technically `Ok`. -/
abbrev RuntimeDispatchResult := Except RuntimeDispatchError RuntimeDispatchSuccess

def toRuntimeDispatchResult : Except DispatchError Unit → RuntimeDispatchResult
  | .ok () => .ok .ok
  | .error (.logicError why) => .ok (.logicError why)
  | .error (.tainted whom orphan) => .error (.tainted whom orphan)

/-- Code over the storage of a runtime. -/
abbrev Storage := StoreProgram Key Value ThreadId Panic

/-- The body of a call. -/
abbrev Dispatch := ExceptT DispatchError Storage

/-- Go on with the value, or panic. -/
def orPanic {X A : Type} : Except Panic A → ExceptT X Storage A
  | .ok a => ExceptT.mk (.done (.ok a))
  | .error why => ExceptT.mk (.fault why)

namespace ModuleRuntime

/-- Read from storage. -/
def read (key : Key) : ExceptT ThreadId Storage Value := ExceptT.mk (.read key .done)

/-- Write to storage. -/
def write (key : Key) (value : Value) : ExceptT ThreadId Storage Unit :=
  ExceptT.mk (.write key value .done)

end ModuleRuntime

/-- Map to `Tainted(t, false)`: the transaction is to be forwarded to the owner. -/
def orForward {A : Type} (op : ExceptT ThreadId Storage A) : Dispatch A :=
  op.adapt (.tainted · false)

/-- Map to `Tainted(t, true)`: the transaction is to be an orphan. -/
def orOrphan {A : Type} (op : ExceptT ThreadId Storage A) : Dispatch A :=
  op.adapt (.tainted · true)

/-- `Result::expect`. -/
def expect {A : Type} (text : String) (op : ExceptT ThreadId Storage A) : Dispatch A :=
  ExceptT.mk do
    match ← op.run with
    | .ok a => return .ok a
    | .error _ => .fault (.expect text)

/-- `map_err(DispatchError::LogicError)?`, on the result of an operation that may
itself panic. -/
def orLogicError {A : Type} (op : Except Panic (Except String A)) : Dispatch A := do
  match ← orPanic op with
  | .ok a => return a
  | .error why => throw (.logicError why)

/-! ## Storage maps -/

/-- A storage map of a module, from accounts to `A`s. -/
structure StorageMap (A : Type) where
  moduleName : String
  storageName : String

namespace StorageMap
variable {A : Type}

/-- What the keys of the map begin with. -/
def keyPrefix (map : StorageMap A) : List UInt8 :=
  (map.moduleName ++ ":" ++ map.storageName).toUTF8.toList

variable [Ed25519]

def keyFor (map : StorageMap A) (key : AccountId) : Key := map.keyPrefix ++ key.bytes

variable [Codec A] [Inhabited A]

/-- `decode(..).unwrap_or_default()`, on the bytes of a stored value. -/
def decodeOrDefault (encoded : Value) : Except Panic A :=
  match (Codec.decode : Decoder A).run encoded with
  | .ok (value, _) => .ok value
  | .error (.error _) => .ok default
  | .error (.panic why) => .error why

def write (map : StorageMap A) (key : AccountId) (val : A) : ExceptT ThreadId Storage Unit := do
  let encodedValue ← orPanic (Codec.encode val)
  ModuleRuntime.write (map.keyFor key) encodedValue

def read (map : StorageMap A) (key : AccountId) : ExceptT ThreadId Storage A := do
  let encoded ← ModuleRuntime.read (map.keyFor key)
  orPanic (decodeOrDefault encoded)

/-- The closure `update` may itself panic. -/
def mutate (map : StorageMap A) (key : AccountId) (update : A → Except Panic A) :
    ExceptT ThreadId Storage Unit := do
  let old ← map.read key
  map.write key (← orPanic (update old))

def clear (map : StorageMap A) (key : AccountId) : ExceptT ThreadId Storage Unit :=
  map.write key default

def «exists» [DecidableEq A] (map : StorageMap A) (key : AccountId) :
    ExceptT ThreadId Storage Bool := do
  return decide ((← map.read key) ≠ default)

end StorageMap

/-! ## Disciplines of the storage operations -/

/-- The failures that a refusal by `owner` may end a call in. -/
def DispatchError.Reports (owner : ThreadId) (e : DispatchError) : Prop :=
  ∃ orphan, e = .tainted owner orphan

def DispatchError.IsLogic (e : DispatchError) : Prop := ∃ why, e = .logicError why

open StoreProgram

/-- A storage operation refused by the owner of a key returns the owner. -/
abbrev FailStopOp {A : Type} (op : ExceptT ThreadId Storage A) : Prop :=
  FailStop (fun owner e => e = owner) Panic.IsExpect op.run

/-- A call refused by the owner of a key reports the owner. -/
abbrev FailStopCall {A : Type} (call : Dispatch A) : Prop :=
  FailStop DispatchError.Reports Panic.IsExpect call.run

section Lifting
variable {A X : Type} {op : ExceptT ThreadId Storage A}

theorem failStop_orPanic {reports : ThreadId → X → Prop} (r : Except Panic A) :
    FailStop reports Panic.IsExpect (orPanic r : ExceptT X Storage A).run := by
  cases r <;> trivial

theorem readOnly_orPanic (r : Except Panic A) : ReadOnly (orPanic r : ExceptT X Storage A).run := by
  cases r <;> trivial

theorem never_orPanic {bad : X → Prop} (r : Except Panic A) :
    Never bad (orPanic r : ExceptT X Storage A).run := by
  cases r <;> trivial

theorem within_orPanic {S : Key → Prop} (r : Except Panic A) :
    Within S (orPanic r : ExceptT X Storage A).run := by
  cases r <;> trivial

theorem faultsIn_orPanic {allowed : Panic → Prop} {r : Except Panic A}
    (h : ∀ why, r = .error why → allowed why) :
    FaultsIn allowed (orPanic r : ExceptT X Storage A).run := by
  cases r with
  | ok a => trivial
  | error why => exact h why rfl

/-- Errors of storage operations are adapted one by one. -/
theorem run_adapt (f : ThreadId → X) :
    (op.adapt f : ExceptT X Storage A).run = op.run >>= fun r => .done (r.mapError f) := rfl

theorem failStop_adapt {f : ThreadId → DispatchError}
    (hf : ∀ owner t, DispatchError.Reports owner (f t) ↔ t = owner) (h : FailStopOp op) :
    FailStopCall (op.adapt f) := by
  have refused : ∀ (owner : ThreadId) (p : Storage (Except ThreadId A)),
      Refused (fun owner e => e = owner) Panic.IsExpect owner p →
      Refused DispatchError.Reports Panic.IsExpect owner
        (p >>= fun r => .done (r.mapError f)) := by
    intro owner p hp
    cases p with
    | done r =>
      cases r with
      | error t => exact (hf owner t).mpr hp
      | ok a => exact hp.elim
    | fault why => exact hp
    | read k next => exact hp.elim
    | write k v next => exact hp.elim
  rw [FailStopCall, run_adapt]
  rw [FailStopOp] at h
  generalize op.run = p at h
  induction p with
  | done r =>
    cases r with
    | error t => exact fun owner ho => h owner ((hf owner t).mp ho)
    | ok a => trivial
  | fault why => trivial
  | read k next ih => exact ⟨fun owner => refused owner _ (h.1 owner), fun v => ih _ (h.2 v)⟩
  | write k v next ih => exact ⟨fun owner => refused owner _ (h.1 owner), fun u => ih _ (h.2 u)⟩

theorem failStop_orForward (h : FailStopOp op) : FailStopCall (orForward op) :=
  failStop_adapt (by simp [DispatchError.Reports]) h

theorem failStop_orOrphan (h : FailStopOp op) : FailStopCall (orOrphan op) :=
  failStop_adapt (by simp [DispatchError.Reports]) h

theorem failStop_expect (text : String) (h : FailStopOp op) : FailStopCall (expect text op) := by
  have refused : ∀ (owner : ThreadId) (p : Storage (Except ThreadId A)),
      Refused (fun owner e => e = owner) Panic.IsExpect owner p →
      Refused DispatchError.Reports Panic.IsExpect owner (expect text (ExceptT.mk p)).run := by
    intro owner p hp
    cases p with
    | done r =>
      cases r with
      | error t => exact ⟨text, rfl⟩
      | ok a => exact hp.elim
    | fault why => exact hp
    | read k next => exact hp.elim
    | write k v next => exact hp.elim
  change FailStopCall (expect text (ExceptT.mk op.run))
  rw [FailStopOp] at h
  generalize op.run = p at h
  induction p with
  | done r => cases r <;> trivial
  | fault why => trivial
  | read k next ih => exact ⟨fun owner => refused owner _ (h.1 owner), fun v => ih _ (h.2 v)⟩
  | write k v next ih => exact ⟨fun owner => refused owner _ (h.1 owner), fun u => ih _ (h.2 u)⟩

theorem readOnly_adapt {f : ThreadId → X} (h : ReadOnly op.run) : ReadOnly (op.adapt f).run := by
  rw [run_adapt]
  generalize op.run = p at h
  induction p with
  | done r => trivial
  | fault why => trivial
  | read k next ih => exact fun r => ih r (h r)
  | write k v next ih => exact h.elim

theorem never_adapt {f : ThreadId → DispatchError} (hf : ∀ t, ¬ (f t).IsLogic) :
    Never DispatchError.IsLogic (op.adapt f).run := by
  rw [run_adapt]
  generalize op.run = p
  induction p with
  | done r =>
    cases r with
    | error t => exact hf t
    | ok a => trivial
  | fault why => trivial
  | read k next ih => exact fun r => ih r
  | write k v next ih => exact fun r => ih r

theorem never_orForward : Never DispatchError.IsLogic (orForward op).run :=
  never_adapt (by simp [DispatchError.IsLogic])

theorem never_orOrphan : Never DispatchError.IsLogic (orOrphan op).run :=
  never_adapt (by simp [DispatchError.IsLogic])

theorem never_expect (text : String) : Never DispatchError.IsLogic (expect text op).run := by
  change Never _ (expect text (ExceptT.mk op.run)).run
  generalize op.run = p
  induction p with
  | done r => cases r <;> trivial
  | fault why => trivial
  | read k next ih => exact fun r => ih r
  | write k v next ih => exact fun r => ih r

theorem within_adapt {S : Key → Prop} {f : ThreadId → X} (h : Within S op.run) :
    Within S (op.adapt f).run := by
  rw [run_adapt]
  exact h.bind fun _ => trivial

theorem within_expect {S : Key → Prop} (text : String) (h : Within S op.run) :
    Within S (expect text op).run :=
  Within.bind h fun r => by cases r <;> trivial

theorem faultsIn_adapt {allowed : Panic → Prop} {f : ThreadId → X} (h : FaultsIn allowed op.run) :
    FaultsIn allowed (op.adapt f).run := by
  rw [run_adapt]
  exact h.bind fun _ => trivial

/-- Refused nothing, an operation does not fail, as is expected of it. -/
theorem faultsIn_expect {allowed : Panic → Prop} (text : String) (hstop : FailStopOp op)
    (h : FaultsIn allowed op.run) : FaultsIn allowed (expect text op).run := by
  change FaultsIn allowed (expect text (ExceptT.mk op.run)).run
  rw [FailStopOp] at hstop
  generalize op.run = p at h hstop
  induction p with
  | done r =>
    cases r with
    | error owner => exact absurd rfl (hstop owner)
    | ok a => trivial
  | fault why => exact h
  | read k next ih => exact fun v => ih _ (h v) (hstop.2 v)
  | write k v next ih => exact fun u => ih _ (h u) (hstop.2 u)

theorem failStop_throw {why : String} : FailStopCall (throw (.logicError why) : Dispatch A) := by
  intro owner ⟨orphan, h⟩
  cases h

theorem failStop_orLogicError (r : Except Panic (Except String A)) :
    FailStopCall (orLogicError r) :=
  FailStop.bind (failStop_orPanic r) fun r => by
    cases r with
    | ok a => trivial
    | error why => exact failStop_throw

theorem readOnly_orLogicError (r : Except Panic (Except String A)) :
    ReadOnly (orLogicError r).run :=
  ReadOnly.bindT (readOnly_orPanic r) fun r => by cases r <;> trivial

theorem within_orLogicError {S : Key → Prop} (r : Except Panic (Except String A)) :
    Within S (orLogicError r).run :=
  Within.bindT (within_orPanic r) fun r => by cases r <;> trivial

end Lifting

namespace StorageMap
variable [Ed25519] {A : Type} [Codec A] [Inhabited A] (map : StorageMap A) (key : AccountId)

omit [Ed25519] in
theorem panicsIn_decodeOrDefault {allowed : Panic → Prop} {encoded : Value} {why : Panic}
    (hdecode : Decoder.PanicsIn allowed (Codec.decode : Decoder A))
    (h : (decodeOrDefault encoded : Except Panic A) = .error why) : allowed why := by
  unfold decodeOrDefault at h
  split at h
  · cases h
  · cases h
  · rename_i p hrun
    cases h
    exact hdecode _ _ hrun

omit [Ed25519] in
theorem isExpect_decodeOrDefault [ExpectingCodec A] {encoded : Value} {why : Panic}
    (h : (decodeOrDefault encoded : Except Panic A) = .error why) : why.IsExpect :=
  panicsIn_decodeOrDefault ExpectingCodec.decode_panic h

theorem failStop_read : FailStopOp (map.read key) :=
  FailStop.bind ⟨fun _ => rfl, fun _ => trivial⟩ fun _ => failStop_orPanic _

omit [Inhabited A] in
theorem failStop_write (val : A) : FailStopOp (map.write key val) :=
  FailStop.bind (failStop_orPanic _) fun _ => ⟨fun _ => rfl, fun _ => trivial⟩

theorem failStop_mutate (update : A → Except Panic A) : FailStopOp (map.mutate key update) :=
  FailStop.bind (failStop_read map key) fun _ =>
    FailStop.bind (failStop_orPanic _) fun _ => failStop_write map key _

theorem failStop_exists [DecidableEq A] : FailStopOp (map.exists key) :=
  FailStop.bind (failStop_read map key) fun _ => trivial

theorem readOnly_read : ReadOnly (map.read key).run :=
  ReadOnly.bindT (p := ModuleRuntime.read (map.keyFor key)) (fun _ => trivial) fun _ =>
    readOnly_orPanic _

theorem readOnly_exists [DecidableEq A] : ReadOnly (map.exists key).run :=
  ReadOnly.bindT (readOnly_read map key) fun _ => trivial

section
variable {allowed : Panic → Prop}
  (hdecode : ∀ encoded why, (decodeOrDefault encoded : Except Panic A) = .error why → allowed why)
  (hencode : ∀ (v : A) why, Codec.encode v = .error why → allowed why)

include hdecode in
theorem faultsIn_read : FaultsIn allowed (map.read key).run :=
  FaultsIn.bindT (p := ModuleRuntime.read (map.keyFor key)) (fun _ => trivial) fun encoded =>
    faultsIn_orPanic (hdecode encoded)

include hencode in
omit [Inhabited A] in
theorem faultsIn_write (val : A) : FaultsIn allowed (map.write key val).run :=
  FaultsIn.bindT (faultsIn_orPanic (hencode val)) fun _ _ => trivial

include hdecode hencode in
theorem faultsIn_mutate {update : A → Except Panic A}
    (hupdate : ∀ old why, update old = .error why → allowed why) :
    FaultsIn allowed (map.mutate key update).run :=
  FaultsIn.bindT (faultsIn_read map key hdecode) fun old =>
    FaultsIn.bindT (faultsIn_orPanic (hupdate old)) fun new => faultsIn_write map key hencode new

end

variable {S : Key → Prop}

theorem within_read (hk : S (map.keyFor key)) : Within S (map.read key).run :=
  Within.bindT (p := ModuleRuntime.read (map.keyFor key)) ⟨hk, fun _ => trivial⟩ fun _ =>
    within_orPanic _

omit [Inhabited A] in
theorem within_write (val : A) (hk : S (map.keyFor key)) : Within S (map.write key val).run :=
  Within.bindT (within_orPanic _) fun _ => ⟨hk, fun _ => trivial⟩

theorem within_mutate (update : A → Except Panic A) (hk : S (map.keyFor key)) :
    Within S (map.mutate key update).run :=
  Within.bindT (within_read map key hk) fun _ =>
    Within.bindT (within_orPanic _) fun _ => within_write map key _ hk

theorem within_exists [DecidableEq A] (hk : S (map.keyFor key)) : Within S (map.exists key).run :=
  Within.bindT (within_read map key hk) fun _ => trivial

end StorageMap
end SonicChain
