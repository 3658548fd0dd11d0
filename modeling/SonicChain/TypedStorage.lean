import SonicChain.Staking
import SonicChain.StoreLogic

/-! # Typed storage

The data of a state, seen as typed maps: `StorageMap.get` reads the value of an
account, `StorageMap.put` replaces it.  The keys of different maps and accounts
are distinct, so a `put` shows in that map and at that account only.  On top of
them stand the rules for the storage operations.
-/

namespace SonicChain
open StoreProgram
variable [Ed25519]

/-- The data under every key. -/
abbrev Data := Key → Value

namespace StorageMap
variable {A B : Type}

theorem keyFor_inj {map : StorageMap A} {map' : StorageMap B} {a b : AccountId}
    (h : map.keyFor a = map'.keyFor b) : map.keyPrefix = map'.keyPrefix ∧ a = b := by
  obtain ⟨hmap, hbytes⟩ := List.append_inj' h (a.length_bytes.trans b.length_bytes.symm)
  exact ⟨hmap, Public.ext hbytes⟩

variable [Codec A] [Inhabited A] [Codec B] [Inhabited B]

/-- The value of an account, as `read` finds it. -/
def get (map : StorageMap A) (d : Data) (a : AccountId) : Except Panic A :=
  decodeOrDefault (d (map.keyFor a))

/-- The data with the encoding of a value under the key of an account. -/
def put (map : StorageMap A) (d : Data) (a : AccountId) (bytes : Value) : Data :=
  Function.update d (map.keyFor a) bytes

omit [Ed25519] in
theorem decodeOrDefault_encode [LawfulCodec A] {v : A} {bytes : Value}
    (h : Codec.encode v = .ok bytes) : decodeOrDefault bytes = .ok v := by
  have hrun := LawfulCodec.decode_encode h []
  rw [List.append_nil] at hrun
  rw [decodeOrDefault, hrun]

theorem get_put_self [LawfulCodec A] (map : StorageMap A) (d : Data) (a : AccountId) {v : A}
    {bytes : Value} (h : Codec.encode v = .ok bytes) : map.get (map.put d a bytes) a = .ok v := by
  rw [get, put, Function.update_self, decodeOrDefault_encode h]

omit [Codec B] [Inhabited B] in
/-- Other keys keep their values. -/
theorem get_put_of_ne {map : StorageMap A} {map' : StorageMap B} {a b : AccountId}
    (h : map.keyPrefix ≠ map'.keyPrefix ∨ b ≠ a) (d : Data) (bytes : Value) :
    map.get (map'.put d a bytes) b = map.get d b := by
  have hkey : map.keyFor b ≠ map'.keyFor a := fun hk =>
    h.elim (fun hp => hp (keyFor_inj hk).1) fun ha => ha (keyFor_inj hk).2
  rw [get, put, Function.update_of_ne hkey, get]

end StorageMap

/-! ## Rules -/

section Rules
variable {A X : Type} {P : Data → Prop} {G : Panic → Prop}

omit [Ed25519] in
theorem triple_orPanic {r : Except Panic A} (h : ∀ d, P d → ∀ why, r = .error why → G why) :
    Triple P (orPanic r : ExceptT X Storage A) (fun a d => r = .ok a ∧ P d) G := by
  intro d hd
  cases r with
  | ok a => exact ⟨rfl, hd⟩
  | error why => exact h d hd why rfl

omit [Ed25519] in
theorem triple_adapt {op : ExceptT ThreadId Storage A} {Q : A → Data → Prop}
    (h : Triple P op Q G) (f : ThreadId → X) : Triple P (op.adapt f : ExceptT X Storage A) Q G := by
  intro d hd
  have := h d hd
  rw [run_adapt, run_bind_eq]
  match op.run.run d, this with
  | .ok (.ok a, d'), h => exact h
  | .ok (.error owner, d'), _ => trivial
  | .error why, h => exact h

omit [Ed25519] in
theorem run_expect (text : String) (op : ExceptT ThreadId Storage A) (d : Data) :
    (expect text op).run.run d =
      match op.run.run d with
      | .ok (.ok a, d') => .ok (.ok a, d')
      | .ok (.error _, _) => .error (.expect text)
      | .error why => .error why := by
  rw [expect, ExceptT.run_mk, run_bind_eq]
  match op.run.run d with
  | .ok (.ok a, d') => rfl
  | .ok (.error owner, d') => rfl
  | .error why => rfl

omit [Ed25519] in
theorem triple_expect {op : ExceptT ThreadId Storage A} {Q : A → Data → Prop} {text : String}
    (htext : G (.expect text)) (h : Triple P op Q G) : Triple P (expect text op) Q G := by
  intro d hd
  have := h d hd
  rw [run_expect]
  match op.run.run d, this with
  | .ok (.ok a, d'), h => exact h
  | .ok (.error owner, d'), _ => exact htext
  | .error why, h => exact h

namespace StorageMap
variable [Codec A] [Inhabited A] (map : StorageMap A) (a : AccountId)

theorem run_read (d : Data) : (map.read a).run.run d =
    match map.get d a with
    | .ok v => .ok (.ok v, d)
    | .error why => .error why := by
  have hkey : (ModuleRuntime.read (map.keyFor a)).run.run d = .ok (.ok (d (map.keyFor a)), d) := rfl
  rw [read, run_bindT, hkey]
  dsimp only
  rw [← get]
  cases map.get d a <;> rfl

omit [Inhabited A] in
theorem run_write (v : A) (d : Data) : (map.write a v).run.run d =
    match (Codec.encode v : Except Panic Value) with
    | .ok bytes => .ok (.ok (), map.put d a bytes)
    | .error why => .error why := by
  rw [write, run_bindT]
  cases (Codec.encode v : Except Panic Value) <;> rfl

theorem triple_read (h : ∀ d, P d → ∀ why, map.get d a = .error why → G why) :
    Triple P (map.read a) (fun v d => map.get d a = .ok v ∧ P d) G := by
  intro d hd
  rw [run_read]
  cases hget : map.get d a with
  | ok v => exact ⟨hget, hd⟩
  | error why => exact h d hd why hget

omit [Inhabited A] in
theorem triple_write {v : A} {Q : Unit → Data → Prop}
    (h : ∀ why, Codec.encode v = .error why → G why) :
    Triple (fun d => ∀ bytes, Codec.encode v = .ok bytes → Q () (map.put d a bytes))
      (map.write a v) Q G := by
  intro d hd
  rw [run_write]
  cases hv : Codec.encode v with
  | ok bytes => exact hd bytes hv
  | error why => exact h why hv

end StorageMap
end Rules

/-! ## What an operation that has returned, or panicked, did -/

section Inversion
variable {A : Type} {d d' : Data} {why : Panic}

omit [Ed25519]

theorem of_adapt_ok {X : Type} {op : ExceptT ThreadId Storage A} {f : ThreadId → X} {a : A}
    (h : (op.adapt f : ExceptT X Storage A).run.run d = .ok (.ok a, d')) :
    op.run.run d = .ok (.ok a, d') := by
  rw [run_adapt, run_bind_eq] at h
  match hop : op.run.run d with
  | .ok (.ok b, e) => rw [hop] at h; cases h; rfl
  | .ok (.error owner, e) => rw [hop] at h; cases h
  | .error p => rw [hop] at h; cases h

theorem of_adapt_fault {X : Type} {op : ExceptT ThreadId Storage A} {f : ThreadId → X}
    (h : (op.adapt f : ExceptT X Storage A).run.run d = .error why) : op.run.run d = .error why := by
  rw [run_adapt, run_bind_eq] at h
  match hop : op.run.run d with
  | .ok (.ok b, e) => rw [hop] at h; cases h
  | .ok (.error owner, e) => rw [hop] at h; cases h
  | .error p => rw [hop] at h; cases h; rfl

theorem of_orPanic_ok {X : Type} {r : Except Panic A} {a : A}
    (h : (orPanic r : ExceptT X Storage A).run.run d = .ok (.ok a, d')) : r = .ok a ∧ d = d' := by
  cases r with
  | ok b => cases h; exact ⟨rfl, rfl⟩
  | error p => cases h

theorem of_orPanic_fault {X : Type} {r : Except Panic A}
    (h : (orPanic r : ExceptT X Storage A).run.run d = .error why) : r = .error why := by
  cases r with
  | ok b => cases h
  | error p => cases h; rfl

theorem of_orLogicError_ok {r : Except Panic (Except String A)} {a : A}
    (h : (orLogicError r).run.run d = .ok (.ok a, d')) : r = .ok (.ok a) ∧ d = d' := by
  obtain ⟨b, e, hr, hb⟩ := of_bindT_ok h
  obtain ⟨rfl, rfl⟩ := of_orPanic_ok hr
  cases b with
  | ok b => cases hb; exact ⟨rfl, rfl⟩
  | error why => cases hb

theorem of_orLogicError_fault {r : Except Panic (Except String A)}
    (h : (orLogicError r).run.run d = .error why) : r = .error why := by
  rcases of_bindT_fault h with h | ⟨b, e, hr, hb⟩
  · exact of_orPanic_fault h
  · cases b <;> cases hb

namespace StorageMap
variable [Ed25519] [Codec A] {map : StorageMap A} {a : AccountId} {v : A}

theorem of_write_ok {u : Unit} (h : (map.write a v).run.run d = .ok (.ok u, d')) :
    ∃ bytes, Codec.encode v = .ok bytes ∧ d' = map.put d a bytes := by
  rw [run_write] at h
  cases hv : (Codec.encode v : Except Panic Value) with
  | ok bytes => rw [hv] at h; cases h; exact ⟨bytes, rfl, rfl⟩
  | error p => rw [hv] at h; cases h

theorem of_write_fault (h : (map.write a v).run.run d = .error why) :
    (Codec.encode v : Except Panic Value) = .error why := by
  rw [run_write] at h
  cases hv : (Codec.encode v : Except Panic Value) with
  | ok bytes => rw [hv] at h; cases h
  | error p => rw [hv] at h; cases h; rfl

theorem of_expect_ok {text : String} {u : Unit}
    (h : (expect text (map.write a v)).run.run d = .ok (.ok u, d')) :
    ∃ bytes, Codec.encode v = .ok bytes ∧ d' = map.put d a bytes := by
  rw [run_expect, run_write] at h
  cases hv : (Codec.encode v : Except Panic Value) with
  | ok bytes => rw [hv] at h; cases h; exact ⟨bytes, rfl, rfl⟩
  | error p => rw [hv] at h; cases h

theorem of_expect_fault {text : String} (h : (expect text (map.write a v)).run.run d = .error why) :
    (Codec.encode v : Except Panic Value) = .error why := by
  rw [run_expect, run_write] at h
  cases hv : (Codec.encode v : Except Panic Value) with
  | ok bytes => rw [hv] at h; cases h
  | error p => rw [hv] at h; cases h; rfl

variable [Inhabited A]

theorem of_read_ok (h : (map.read a).run.run d = .ok (.ok v, d')) : map.get d a = .ok v ∧ d = d' := by
  rw [run_read] at h
  cases hget : map.get d a with
  | ok w => rw [hget] at h; cases h; exact ⟨rfl, rfl⟩
  | error p => rw [hget] at h; cases h

theorem of_read_fault (h : (map.read a).run.run d = .error why) : map.get d a = .error why := by
  rw [run_read] at h
  cases hget : map.get d a with
  | ok w => rw [hget] at h; cases h
  | error p => rw [hget] at h; cases h; rfl

theorem of_exists_ok [DecidableEq A] {b : Bool}
    (h : (map.exists a).run.run d = .ok (.ok b, d')) :
    ∃ v, map.get d a = .ok v ∧ b = decide (v ≠ default) ∧ d = d' := by
  obtain ⟨v, e, hv, hb⟩ := of_bindT_ok h
  obtain ⟨hget, rfl⟩ := of_read_ok hv
  cases hb
  exact ⟨v, hget, rfl, rfl⟩

theorem of_exists_fault [DecidableEq A] (h : (map.exists a).run.run d = .error why) :
    map.get d a = .error why := by
  rcases of_bindT_fault h with h | ⟨v, e, hv, hb⟩
  · exact of_read_fault h
  · cases hb

theorem of_mutate_ok {update : A → Except Panic A} {u : Unit}
    (h : (map.mutate a update).run.run d = .ok (.ok u, d')) :
    ∃ old new bytes, map.get d a = .ok old ∧ update old = .ok new ∧ Codec.encode new = .ok bytes ∧
      d' = map.put d a bytes := by
  obtain ⟨old, e, hold, hrest⟩ := of_bindT_ok h
  obtain ⟨hget, rfl⟩ := of_read_ok hold
  obtain ⟨new, e', hnew, hwrite⟩ := of_bindT_ok hrest
  obtain ⟨hupdate, rfl⟩ := of_orPanic_ok hnew
  obtain ⟨bytes, hbytes, rfl⟩ := of_write_ok hwrite
  exact ⟨old, new, bytes, hget, hupdate, hbytes, rfl⟩

theorem of_mutate_fault {update : A → Except Panic A}
    (h : (map.mutate a update).run.run d = .error why) :
    map.get d a = .error why ∨ ∃ old, map.get d a = .ok old ∧ (update old = .error why ∨
      ∃ new, update old = .ok new ∧ (Codec.encode new : Except Panic Value) = .error why) := by
  rcases of_bindT_fault h with hread | ⟨old, e, hold, hrest⟩
  · exact .inl (of_read_fault hread)
  obtain ⟨hget, rfl⟩ := of_read_ok hold
  rcases of_bindT_fault hrest with hupdate | ⟨new, e', hnew, hwrite⟩
  · exact .inr ⟨old, hget, .inl (of_orPanic_fault hupdate)⟩
  obtain ⟨hupdate, rfl⟩ := of_orPanic_ok hnew
  exact .inr ⟨old, hget, .inr ⟨new, hupdate, of_write_fault hwrite⟩⟩

end StorageMap
end Inversion

/-- The prefixes of the four storage maps are different. -/
theorem keyPrefixes_pairwise :
    List.Pairwise (· ≠ ·) [balanceOf.keyPrefix, ledgerOf.keyPrefix, bonded.keyPrefix,
      nominations.keyPrefix] := by
  change List.Pairwise (· ≠ ·) (["balances:balance_of", "staking:ledger_of", "staking:bonded",
    "staking:nominations"].map fun name : String => name.toUTF8.toList)
  decide +kernel

theorem balanceOf_ledgerOf : balanceOf.keyPrefix ≠ ledgerOf.keyPrefix :=
  List.rel_of_pairwise_cons keyPrefixes_pairwise (by simp)

theorem balanceOf_bonded : balanceOf.keyPrefix ≠ bonded.keyPrefix :=
  List.rel_of_pairwise_cons keyPrefixes_pairwise (by simp)

theorem balanceOf_nominations : balanceOf.keyPrefix ≠ nominations.keyPrefix :=
  List.rel_of_pairwise_cons keyPrefixes_pairwise (by simp)

theorem ledgerOf_bonded : ledgerOf.keyPrefix ≠ bonded.keyPrefix :=
  List.rel_of_pairwise_cons keyPrefixes_pairwise.of_cons (by simp)

theorem ledgerOf_nominations : ledgerOf.keyPrefix ≠ nominations.keyPrefix :=
  List.rel_of_pairwise_cons keyPrefixes_pairwise.of_cons (by simp)

theorem bonded_nominations : bonded.keyPrefix ≠ nominations.keyPrefix :=
  List.rel_of_pairwise_cons keyPrefixes_pairwise.of_cons.of_cons (by simp)

end SonicChain
