import Mathlib.Data.BitVec

/-! # Panics and checked arithmetic

What the Rust code below can do besides returning: panic.  Arithmetic overflow
and failed debug assertions panic, as in the profile that the tests and debug
assertions of the source are built with. -/

namespace SonicChain

/-- Why a thread panicked. -/
inductive Panic where
  | message (text : String)
  | expect (text : String)
  | unwrap
  | addOverflow (place : String)
  | subOverflow (place : String)
  | debugAssert (text : String)
  deriving DecidableEq, Repr

/-- Whether something returns, with what satisfies `p`. -/
instance {A : Type} (r : Except Panic A) (p : A → Prop) [DecidablePred p] :
    Decidable (∃ a, r = .ok a ∧ p a) :=
  match r with
  | .ok a => decidable_of_iff (p a) ⟨fun h => ⟨a, rfl, h⟩, fun ⟨_, h, hp⟩ => Except.ok.inj h ▸ hp⟩
  | .error _ => isFalse fun ⟨_, h, _⟩ => nomatch h

def Panic.IsExpect (p : Panic) : Prop := ∃ text, p = .expect text

/-- The type `u128`. -/
abbrev U128 := BitVec 128

namespace U128

/-- `u128::MAX`. -/
def max : Nat := 2 ^ 128 - 1

/-- `checked_sub`. -/
def checkedSub (a b : U128) : Option U128 := if b.toNat ≤ a.toNat then some (a - b) else none

/-- `place += b`, where `place` holds `a`. -/
def addAssign (place : String) (a b : U128) : Except Panic U128 :=
  if a.toNat + b.toNat < 2 ^ 128 then .ok (a + b) else .error (.addOverflow place)

/-- `place -= b`, where `place` holds `a`. -/
def subAssign (place : String) (a b : U128) : Except Panic U128 :=
  if b.toNat ≤ a.toNat then .ok (a - b) else .error (.subOverflow place)

theorem toNat_sub_of_le {a b : U128} (h : b.toNat ≤ a.toNat) :
    (a - b).toNat = a.toNat - b.toNat := BitVec.toNat_sub_of_le (BitVec.le_def.mpr h)

theorem toNat_add_of_lt {a b : U128} (h : a.toNat + b.toNat < 2 ^ 128) :
    (a + b).toNat = a.toNat + b.toNat := by
  rw [BitVec.toNat_add, Nat.mod_eq_of_lt h]

theorem checkedSub_of_le {a b : U128} (h : b.toNat ≤ a.toNat) : checkedSub a b = some (a - b) :=
  if_pos h

theorem of_checkedSub_eq_some {a b r : U128} (h : checkedSub a b = some r) :
    b.toNat ≤ a.toNat ∧ r.toNat = a.toNat - b.toNat := by
  unfold checkedSub at h
  split at h
  · rename_i hle
    cases h
    exact ⟨hle, toNat_sub_of_le hle⟩
  · cases h

theorem addAssign_of_lt (place : String) {a b : U128} (h : a.toNat + b.toNat < 2 ^ 128) :
    addAssign place a b = .ok (a + b) := if_pos h

theorem subAssign_of_le (place : String) {a b : U128} (h : b.toNat ≤ a.toNat) :
    subAssign place a b = .ok (a - b) := if_pos h

theorem of_addAssign_ok {place : String} {a b c : U128} (h : addAssign place a b = .ok c) :
    a.toNat + b.toNat < 2 ^ 128 ∧ c = a + b := by
  unfold addAssign at h
  split at h
  · rename_i hlt
    exact ⟨hlt, (Except.ok.inj h).symm⟩
  · cases h

theorem of_addAssign_error {place : String} {a b : U128} {why : Panic}
    (h : addAssign place a b = .error why) : why = .addOverflow place := by
  unfold addAssign at h
  split at h
  · cases h
  · cases h; rfl

theorem of_subAssign_error {place : String} {a b : U128} {why : Panic}
    (h : subAssign place a b = .error why) : why = .subOverflow place := by
  unfold subAssign at h
  split at h
  · cases h
  · cases h; rfl

end U128
end SonicChain
