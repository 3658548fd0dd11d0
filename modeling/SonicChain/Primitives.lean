import SonicChain.Scale
import Mathlib.Data.Fintype.EquivFin
import Mathlib.Data.Finite.Prod

/-! # Primitive types

Identifiers, balances and account keys.  Which byte strings are public keys,
and which signatures they verify, is decided by the ed25519 implementation the
crate links against; the development takes it as a parameter (`Ed25519`).
-/

namespace SonicChain

/-- The key of storage items. -/
abbrev Key := List UInt8

/-- Values inserted into storage. -/
abbrev Value := List UInt8

/-- Identifier of a thread. -/
abbrev ThreadId := UInt64

/-- Identifier of a transaction. -/
abbrev TransactionId := UInt32

/-- The balance type. -/
abbrev Balance := U128

/-- The public half of the `DEFAULT` key pair. -/
def defaultPublic : List UInt8 :=
  [230, 54, 165, 51, 137, 245, 246, 79, 228, 163, 178, 217, 247, 22, 65, 138, 1, 166, 141, 18, 205,
    146, 98, 28, 91, 206, 190, 92, 192, 84, 42, 255]

/-- The signature scheme: which 32-byte strings `PublicKey::from_bytes` accepts,
among them the default account's, and which signatures a key verifies. -/
class Ed25519 where
  accepts : List UInt8 → Bool
  accepts_default : accepts defaultPublic = true
  Signature : Type
  verify : List UInt8 → List UInt8 → Signature → Bool

/-- A public key: the compressed bytes of a curve point. -/
structure Public [Ed25519] where
  bytes : List UInt8
  length_bytes : bytes.length = 32
  accepted : Ed25519.accepts bytes = true

/-- The account identifier. -/
abbrev AccountId [Ed25519] := Public

namespace Public
variable [Ed25519]

@[ext] theorem ext {a b : Public} (h : a.bytes = b.bytes) : a = b := by
  cases a; cases b; cases h; rfl

instance : DecidableEq Public := fun a b =>
  decidable_of_iff (a.bytes = b.bytes) ⟨ext, fun h => h ▸ rfl⟩

/-- `Default for Public`. -/
instance : Inhabited Public := ⟨⟨defaultPublic, rfl, Ed25519.accepts_default⟩⟩

/-- There are finitely many accounts. -/
instance : Finite Public :=
  Finite.of_injective (fun a (i : Fin 32) => (a.bytes.getD i 0).toBitVec.toFin) (by
    intro a b h
    refine ext (List.ext_getElem (a.length_bytes.trans b.length_bytes.symm) fun i hi hi' => ?_)
    have hi32 : i < 32 := a.length_bytes ▸ hi
    have hbyte := UInt8.toBitVec_inj.mp (BitVec.toFin_inj.mp (congrFun h ⟨i, hi32⟩))
    simpa [hi, hi'] using hbyte)

def fromBytes (bytes : List UInt8) : Option Public :=
  if h : bytes.length = 32 ∧ Ed25519.accepts bytes = true then some ⟨bytes, h.1, h.2⟩ else none

theorem fromBytes_bytes (a : Public) : fromBytes a.bytes = some a :=
  dif_pos ⟨a.length_bytes, a.accepted⟩

/-- `Decode for Public`: no input left decodes to the default account, and too
little input panics. -/
def decode : Decoder Public := do
  if (← Decoder.remainingLen) = 0 then return default
  let input ← Decoder.remainingLen
  if input < 32 then
    Decoder.panic (.expect "Encoded public mut be exactly `PUBLIC_KEY_LENGTH`")
  else
    match fromBytes (← Decoder.readBytes 32) with
    | some key => return key
    | none => Decoder.fail "Failed to build public from bytes"

instance : Codec Public where
  encode a := .ok a.bytes
  decode := decode

@[simp] theorem encode_eq (a : Public) : Codec.encode a = .ok a.bytes := rfl

theorem run_decode (a : Public) (rest : List UInt8) :
    (Codec.decode : Decoder Public).run (a.bytes ++ rest) = .ok (a, rest) := by
  have hlen := a.length_bytes
  change decode.run _ = _
  simp [decode, hlen, Decoder.run_readBytes hlen rest, fromBytes_bytes]

theorem decode_nil : decode.run [] = .ok (default, []) := rfl

theorem decode_short {input : List UInt8} (h : 0 < input.length ∧ input.length < 32) :
    decode.run input =
      .error (.panic (.expect "Encoded public mut be exactly `PUBLIC_KEY_LENGTH`")) := by
  have h0 : input.length ≠ 0 := by omega
  rw [decode, StateT.run_bind, Decoder.run_remainingLen, Decoder.ok_bind, if_neg h0,
    StateT.run_bind, Decoder.run_remainingLen, Decoder.ok_bind, if_pos h.2]
  rfl

/-- Enough input begins with an account, or is refused. -/
theorem decode_long {input : List UInt8} (h : 32 ≤ input.length) :
    (∃ (a : Public) (rest : List UInt8), input = a.bytes ++ rest ∧
      decode.run input = .ok (a, rest)) ∨
      decode.run input = .error (.error "Failed to build public from bytes") := by
  by_cases haccepted : Ed25519.accepts (input.take 32) = true
  · have hinput := (List.take_append_drop 32 input).symm
    refine .inl ⟨⟨input.take 32, List.length_take_of_le h, haccepted⟩, input.drop 32, hinput, ?_⟩
    have hrun := run_decode ⟨input.take 32, List.length_take_of_le h, haccepted⟩ (input.drop 32)
    rwa [← hinput] at hrun
  · have h0 : input.length ≠ 0 := by omega
    have h32 : ¬ input.length < 32 := by omega
    have hread : (Decoder.readBytes 32).run input = .ok (input.take 32, input.drop 32) := if_pos h
    have hnone : fromBytes (input.take 32) = none := dif_neg fun hb => haccepted hb.2
    right
    rw [decode, StateT.run_bind, Decoder.run_remainingLen, Decoder.ok_bind, if_neg h0,
      StateT.run_bind, Decoder.run_remainingLen, Decoder.ok_bind, if_neg h32,
      StateT.run_bind, hread, Decoder.ok_bind, hnone]
    rfl

/-- Decoding panics on too little input only. -/
theorem panicsIn_decode {allowed : Panic → Prop}
    (hshort : allowed (.expect "Encoded public mut be exactly `PUBLIC_KEY_LENGTH`")) :
    Decoder.PanicsIn allowed Public.decode := by
  intro input why h
  by_cases h0 : input.length = 0
  · simp [decode, h0] at h
  rw [decode, StateT.run_bind, Decoder.run_remainingLen, Decoder.ok_bind, if_neg h0,
    StateT.run_bind, Decoder.run_remainingLen, Decoder.ok_bind] at h
  by_cases h32 : input.length < 32
  · rw [if_pos h32] at h
    cases h
    exact hshort
  · rw [if_neg h32] at h
    refine Decoder.PanicsIn.bind (Decoder.panicsIn_readBytes 32) (fun bytes => ?_) _ _ h
    split
    exacts [.pure _, .fail _]

instance : ExpectingCodec Public where
  encode_panic := nofun
  decode_panic := panicsIn_decode ⟨_, rfl⟩

instance : LawfulCodec Public where
  decode_encode := by
    intro a bytes h rest
    obtain rfl := Except.ok.inj h
    exact run_decode a rest

end Public

/-! ## Accounts for concrete runs -/

namespace Testing

def aliceBytes : List UInt8 :=
  [164, 60, 189, 222, 17, 247, 124, 143, 160, 82, 185, 246, 157, 20, 106, 182, 97, 30, 181, 158, 71,
    93, 35, 179, 171, 251, 111, 198, 206, 180, 249, 81]

def bobBytes : List UInt8 :=
  [75, 236, 184, 74, 110, 177, 248, 89, 181, 88, 105, 72, 121, 68, 121, 212, 49, 155, 114, 162, 138,
    220, 64, 115, 12, 203, 13, 204, 232, 80, 197, 128]

def daveBytes : List UInt8 :=
  [52, 250, 190, 45, 30, 123, 179, 245, 198, 198, 171, 122, 42, 39, 219, 252, 155, 118, 172, 3, 42,
    140, 242, 58, 182, 214, 35, 33, 6, 134, 37, 202]

/-- The signature scheme on the test accounts of the source, whose keys are
accepted.  A signature is what was signed, together with who signed it. -/
scoped instance ed25519 : Ed25519 where
  accepts bytes := decide (bytes ∈ [defaultPublic, aliceBytes, bobBytes, daveBytes])
  accepts_default := by decide +kernel
  Signature := List UInt8 × List UInt8
  verify key message signature := decide (signature = (key, message))

def alice : AccountId := ⟨aliceBytes, rfl, by decide +kernel⟩

def bob : AccountId := ⟨bobBytes, rfl, by decide +kernel⟩

def dave : AccountId := ⟨daveBytes, rfl, by decide +kernel⟩

end Testing
end SonicChain
