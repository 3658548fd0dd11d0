import SonicChain.Rust
import Mathlib.Tactic.Ring

/-! # The SCALE codec

Little-endian integers, enum indices and length-prefixed vectors as SCALE
encodes them.  A decoder consumes a prefix of its input and leaves the rest; it
may fail with an error, which the caller sees, or panic, which it does not.
Encoding panics only for a vector too long for its length prefix.
-/

namespace SonicChain

/-- How decoding may fail. -/
inductive DecodeFailure where
  | error (text : String)
  | panic (why : Panic)
  deriving DecidableEq, Repr

/-- A decoder of `A`s, over the bytes that remain of its input. -/
abbrev Decoder (A : Type) := StateT (List UInt8) (Except DecodeFailure) A

/-- `Encode` and `Decode`. -/
class Codec (A : Type) where
  encode : A → Except Panic (List UInt8)
  decode : Decoder A

/-- Decoding what was encoded gives the value back and leaves what follows. -/
class LawfulCodec (A : Type) [Codec A] : Prop where
  decode_encode : ∀ {a : A} {bytes : List UInt8}, Codec.encode a = .ok bytes →
    ∀ rest, (Codec.decode : Decoder A).run (bytes ++ rest) = .ok (a, rest)

/-- What the codec decodes from the input is what was encoded there. -/
def ReadsBack (A : Type) [Codec A] (input : List UInt8) : Prop :=
  ∀ (a : A) (rest : List UInt8), (Codec.decode : Decoder A).run input = .ok (a, rest) →
    ∃ bytes, Codec.encode a = .ok bytes ∧ input = bytes ++ rest

/-- The input ends before the encoding of a value does. -/
def CutShort (A : Type) [Codec A] (input : List UInt8) : Prop :=
  ∃ (a : A) (more : List UInt8), more ≠ [] ∧ Codec.encode a = .ok (input ++ more)

/-- Nothing is decoded from an encoding cut short, where decoding reads back. -/
theorem ReadsBack.not_ok {A : Type} [Codec A] [LawfulCodec A] {input : List UInt8}
    (h : ReadsBack A input) (hcut : CutShort A input) (out : A × List UInt8) :
    (Codec.decode : Decoder A).run input ≠ .ok out := by
  intro hrun
  obtain ⟨b, more, hmore, hencode⟩ := hcut
  obtain ⟨bytes, ha, rfl⟩ := h out.1 out.2 hrun
  have hwhole := LawfulCodec.decode_encode hencode []
  rw [List.append_nil, List.append_assoc, LawfulCodec.decode_encode ha] at hwhole
  have hrest : out.2 ++ more = [] := (Prod.mk.inj (Except.ok.inj hwhole)).2
  exact hmore (List.append_eq_nil_iff.mp hrest).2

/-- The decoder panics in `allowed` ways only. -/
def Decoder.PanicsIn {A : Type} (allowed : Panic → Prop) (d : Decoder A) : Prop :=
  ∀ input why, d.run input = .error (.panic why) → allowed why

/-- The codec panics only where it `expect`s something. -/
class ExpectingCodec (A : Type) [Codec A] : Prop where
  encode_panic : ∀ (a : A) (why : Panic), Codec.encode a = .error why → why.IsExpect
  decode_panic : Decoder.PanicsIn Panic.IsExpect (Codec.decode : Decoder A)

namespace Decoder

/-- `Input::read` into a buffer of `n` bytes. -/
def readBytes (n : Nat) : Decoder (List UInt8) := fun input =>
  if n ≤ input.length then .ok (input.take n, input.drop n)
  else .error (.error "Not enough data to fill buffer")

/-- `Input::read_byte`. -/
def readByte : Decoder UInt8 := fun input =>
  match input with
  | byte :: rest => .ok (byte, rest)
  | [] => .error (.error "Not enough data to fill buffer")

/-- `Input::remaining_len`. -/
def remainingLen : Decoder Nat := fun input => .ok (input.length, input)

def fail {A : Type} (text : String) : Decoder A := fun _ => .error (.error text)

def panic {A : Type} (why : Panic) : Decoder A := fun _ => .error (.panic why)

theorem run_readBytes {n : Nat} {bytes : List UInt8} (h : bytes.length = n)
    (rest : List UInt8) : (readBytes n).run (bytes ++ rest) = .ok (bytes, rest) := by
  subst h
  simp [readBytes, StateT.run]

@[simp] theorem ok_bind {A B : Type} (a : A) (f : A → Except DecodeFailure B) :
    (Except.ok a >>= f) = f a := rfl

@[simp] theorem error_bind {A B : Type} (e : DecodeFailure) (f : A → Except DecodeFailure B) :
    (Except.error e >>= f) = .error e := rfl

@[simp] theorem run_remainingLen (input : List UInt8) :
    remainingLen.run input = .ok (input.length, input) := rfl

@[simp] theorem pure_eq_ok {A : Type} (a : A) : (pure a : Except DecodeFailure A) = .ok a := rfl

section
variable {A B : Type}

theorem run_bind_of_ok {d : Decoder A} {f : A → Decoder B} {input mid : List UInt8} {a : A}
    (h : d.run input = .ok (a, mid)) :
    (d >>= f).run input = (f a).run mid := by
  rw [StateT.run_bind, h]
  rfl

theorem run_bind_of_error {d : Decoder A} {f : A → Decoder B} {input : List UInt8}
    {e : DecodeFailure} (h : d.run input = .error e) :
    (d >>= f).run input = .error e := by
  rw [StateT.run_bind, h]
  rfl

theorem of_run_bind {d : Decoder A} {f : A → Decoder B} {input rest : List UInt8} {b : B}
    (h : (d >>= f).run input = .ok (b, rest)) :
    ∃ a mid, d.run input = .ok (a, mid) ∧ (f a).run mid = .ok (b, rest) := by
  rw [StateT.run_bind] at h
  cases hrun : d.run input with
  | ok out => rw [hrun] at h; exact ⟨out.1, out.2, rfl, h⟩
  | error e => rw [hrun] at h; cases h

theorem of_run_bind_error {d : Decoder A} {f : A → Decoder B} {input : List UInt8}
    {e : DecodeFailure} (h : (d >>= f).run input = .error e) :
    d.run input = .error e ∨ ∃ a mid, d.run input = .ok (a, mid) ∧ (f a).run mid = .error e := by
  rw [StateT.run_bind] at h
  cases hrun : d.run input with
  | ok out => rw [hrun] at h; exact .inr ⟨out.1, out.2, rfl, h⟩
  | error e' =>
    rw [hrun] at h
    cases h
    exact .inl rfl

theorem of_run_pure {a b : A} {input rest : List UInt8}
    (h : (pure a : Decoder A).run input = .ok (b, rest)) : b = a ∧ rest = input := by
  obtain ⟨rfl, rfl⟩ := Prod.mk.inj (Except.ok.inj h)
  exact ⟨rfl, rfl⟩

theorem of_run_readByte {byte : UInt8} {input rest : List UInt8}
    (h : readByte.run input = .ok (byte, rest)) : input = byte :: rest := by
  cases input with
  | nil => cases h
  | cons b bs =>
    obtain ⟨rfl, rfl⟩ := Prod.mk.inj (Except.ok.inj h)
    rfl

theorem of_run_readBytes {n : Nat} {bytes input rest : List UInt8}
    (h : (readBytes n).run input = .ok (bytes, rest)) :
    bytes.length = n ∧ input = bytes ++ rest := by
  by_cases hn : n ≤ input.length
  · have hrun : (readBytes n).run input = .ok (input.take n, input.drop n) := if_pos hn
    obtain ⟨rfl, rfl⟩ := Prod.mk.inj (Except.ok.inj (hrun.symm.trans h))
    exact ⟨List.length_take_of_le hn, (List.take_append_drop n input).symm⟩
  · have hrun : (readBytes n).run input = _ := if_neg hn
    cases hrun.symm.trans h

end

section
variable {A B : Type} {allowed : Panic → Prop}

theorem PanicsIn.pure (a : A) : PanicsIn allowed (pure a : Decoder A) := nofun

theorem PanicsIn.fail (text : String) : PanicsIn allowed (fail text : Decoder A) := nofun

theorem PanicsIn.bind {d : Decoder A} {f : A → Decoder B} (hd : PanicsIn allowed d)
    (hf : ∀ a, PanicsIn allowed (f a)) : PanicsIn allowed (d >>= f) := by
  intro input why h
  rw [StateT.run_bind] at h
  cases hrun : d.run input with
  | ok out => rw [hrun] at h; exact hf out.1 _ _ h
  | error e => rw [hrun] at h; cases h; exact hd _ _ hrun

theorem panicsIn_readBytes (n : Nat) : PanicsIn allowed (readBytes n) := by
  intro input why h
  by_cases hn : n ≤ input.length <;> simp [readBytes, StateT.run, hn] at h

theorem panicsIn_readByte : PanicsIn allowed readByte := by
  intro input why h
  cases input <;> cases h

end

end Decoder

/-! ### Little-endian integers -/

/-- The `n` little-endian bytes of a number. -/
def leBytes : Nat → Nat → List UInt8
  | 0, _ => []
  | n + 1, x => UInt8.ofNat x :: leBytes n (x / 256)

/-- The number of a little-endian byte string. -/
def ofLeBytes : List UInt8 → Nat
  | [] => 0
  | byte :: bytes => byte.toNat + 256 * ofLeBytes bytes

@[simp] theorem length_leBytes (n x : Nat) : (leBytes n x).length = n := by
  induction n generalizing x with
  | zero => rfl
  | succ n ih => simp [leBytes, ih]

theorem ofLeBytes_leBytes {n x : Nat} (h : x < 256 ^ n) : ofLeBytes (leBytes n x) = x := by
  induction n generalizing x with
  | zero => simp [leBytes, ofLeBytes]; omega
  | succ n ih =>
    have hdiv : x / 256 < 256 ^ n := by
      rw [Nat.div_lt_iff_lt_mul (by decide), ← Nat.pow_succ]
      exact h
    rw [leBytes, ofLeBytes, ih hdiv, UInt8.toNat_ofNat']
    omega

theorem ofLeBytes_lt (bytes : List UInt8) : ofLeBytes bytes < 256 ^ bytes.length := by
  induction bytes with
  | nil => exact Nat.one_pos
  | cons byte bytes ih =>
    have hbyte := byte.toNat_lt
    rw [ofLeBytes, List.length_cons, Nat.pow_succ]
    omega

theorem leBytes_ofLeBytes (bytes : List UInt8) :
    leBytes bytes.length (ofLeBytes bytes) = bytes := by
  induction bytes with
  | nil => rfl
  | cons byte bytes ih =>
    have hbyte := byte.toNat_lt
    have hdiv : (byte.toNat + 256 * ofLeBytes bytes) / 256 = ofLeBytes bytes := by omega
    have hhead : UInt8.ofNat (byte.toNat + 256 * ofLeBytes bytes) = byte := by
      rw [← UInt8.toNat_inj, UInt8.toNat_ofNat']
      omega
    rw [List.length_cons, ofLeBytes, leBytes, hdiv, ih, hhead]

/-- A number read from `n` little-endian bytes. -/
def decodeLe (n : Nat) : Decoder Nat := do
  let bytes ← Decoder.readBytes n
  return ofLeBytes bytes

theorem run_decodeLe {n x : Nat} (h : x < 256 ^ n) (rest : List UInt8) :
    (decodeLe n).run (leBytes n x ++ rest) = .ok (x, rest) := by
  simp [decodeLe, Decoder.run_readBytes (length_leBytes n x), ofLeBytes_leBytes h]

theorem of_run_decodeLe {n x : Nat} {input rest : List UInt8}
    (h : (decodeLe n).run input = .ok (x, rest)) : x < 256 ^ n ∧ input = leBytes n x ++ rest := by
  obtain ⟨bytes, mid, hbytes, h⟩ := Decoder.of_run_bind h
  obtain ⟨rfl, rfl⟩ := Decoder.of_run_pure h
  obtain ⟨rfl, rfl⟩ := Decoder.of_run_readBytes hbytes
  exact ⟨ofLeBytes_lt bytes, by rw [leBytes_ofLeBytes]⟩

theorem panicsIn_decodeLe {allowed : Panic → Prop} (n : Nat) :
    Decoder.PanicsIn allowed (decodeLe n) :=
  .bind (Decoder.panicsIn_readBytes n) fun _ => .pure _

instance : Codec U128 where
  encode x := .ok (leBytes 16 x.toNat)
  decode := do return BitVec.ofNat 128 (← decodeLe 16)

@[simp] theorem encode_u128 (x : U128) : Codec.encode x = .ok (leBytes 16 x.toNat) := rfl

instance : LawfulCodec U128 where
  decode_encode := by
    intro x bytes h rest
    obtain rfl := Except.ok.inj h
    have hx : x.toNat < 256 ^ 16 := x.isLt
    change (decodeLe 16 >>= fun n => pure (BitVec.ofNat 128 n)).run _ = _
    simp [run_decodeLe hx]

theorem run_decode_u128 {input : List UInt8} (h : 16 ≤ input.length) :
    (Codec.decode : Decoder U128).run input =
      .ok (BitVec.ofNat 128 (ofLeBytes (input.take 16)), input.drop 16) := by
  have hread : (Decoder.readBytes 16).run input = .ok (input.take 16, input.drop 16) := if_pos h
  have hnumber : (decodeLe 16).run input = .ok (ofLeBytes (input.take 16), input.drop 16) :=
    Decoder.run_bind_of_ok hread
  exact Decoder.run_bind_of_ok hnumber

theorem readsBack_u128 (input : List UInt8) : ReadsBack U128 input := by
  intro x rest h
  obtain ⟨n, mid, hn, h⟩ := Decoder.of_run_bind h
  obtain ⟨rfl, rfl⟩ := Decoder.of_run_pure h
  obtain ⟨hlt, rfl⟩ := of_run_decodeLe hn
  refine ⟨_, encode_u128 _, ?_⟩
  have hvalue : (BitVec.ofNat 128 n).toNat = n := by
    rw [BitVec.toNat_ofNat]
    exact Nat.mod_eq_of_lt hlt
  rw [hvalue]

theorem panicsIn_decode_u128 {allowed : Panic → Prop} :
    Decoder.PanicsIn allowed (Codec.decode : Decoder U128) :=
  Decoder.PanicsIn.bind (panicsIn_decodeLe 16) fun _ => .pure _

instance : ExpectingCodec U128 where
  encode_panic := nofun
  decode_panic := panicsIn_decode_u128

/-! ### Lengths and vectors -/

/-- The compact encoding of a `u32`: the low two bits of the first byte say how
long it is. -/
def encodeCompact (x : Nat) : List UInt8 :=
  if x ≤ 0x3F then leBytes 1 (x * 4)
  else if x ≤ 0x3FFF then leBytes 2 (x * 4 + 1)
  else if x ≤ 0x3FFFFFFF then leBytes 4 (x * 4 + 2)
  else 3 :: leBytes 4 x

def decodeCompact : Decoder Nat := do
  let head ← Decoder.readByte
  match head.toNat % 4 with
  | 0 => return head.toNat / 4
  | 1 =>
    let tail ← Decoder.readBytes 1
    let x := ofLeBytes (head :: tail) / 4
    if 0x3F < x then return x else Decoder.fail "out of range"
  | 2 =>
    let tail ← Decoder.readBytes 3
    let x := ofLeBytes (head :: tail) / 4
    if 0x3FFF < x then return x else Decoder.fail "out of range"
  | _ =>
    if head.toNat / 4 = 0 then
      let x ← decodeLe 4
      if 0x3FFFFFFF < x then return x else Decoder.fail "out of range"
    else Decoder.fail "out of range"

/-- The elements one after the other. -/
def encodeAll {A : Type} [Codec A] : List A → Except Panic (List UInt8)
  | [] => .ok []
  | a :: as => do
    let bytes ← Codec.encode a
    return bytes ++ (← encodeAll as)

def decodeMany {A : Type} [Codec A] : Nat → Decoder (List A)
  | 0 => return []
  | n + 1 => do
    let a ← Codec.decode
    return a :: (← decodeMany n)

instance {A : Type} [Codec A] : Codec (List A) where
  encode as := do
    if 2 ^ 32 ≤ as.length then .error (.expect "Compact encodes length")
    return encodeCompact as.length ++ (← encodeAll as)
  decode := do decodeMany (← decodeCompact)

theorem panicsIn_decodeCompact {allowed : Panic → Prop} :
    Decoder.PanicsIn allowed decodeCompact := by
  refine .bind Decoder.panicsIn_readByte fun head => ?_
  split
  · exact .pure _
  · refine .bind (Decoder.panicsIn_readBytes 1) fun tail => ?_
    dsimp only
    split
    exacts [.pure _, .fail _]
  · refine .bind (Decoder.panicsIn_readBytes 3) fun tail => ?_
    dsimp only
    split
    exacts [.pure _, .fail _]
  · split
    · refine .bind (panicsIn_decodeLe 4) fun x => ?_
      split
      exacts [.pure _, .fail _]
    · exact .fail _

theorem panicsIn_decodeMany {A : Type} [Codec A] [ExpectingCodec A] (n : Nat) :
    Decoder.PanicsIn Panic.IsExpect (decodeMany n : Decoder (List A)) := by
  induction n with
  | zero => exact .pure _
  | succ n ih => exact .bind ExpectingCodec.decode_panic fun _ => .bind ih fun _ => .pure _

theorem isExpect_encodeAll {A : Type} [Codec A] [ExpectingCodec A] {as : List A} {why : Panic}
    (h : encodeAll as = .error why) : why.IsExpect := by
  induction as with
  | nil => cases h
  | cons a as ih =>
    rw [encodeAll] at h
    cases ha : Codec.encode a with
    | error p => rw [ha] at h; cases h; exact ExpectingCodec.encode_panic _ _ ha
    | ok bytes =>
      rw [ha] at h
      cases has : encodeAll as with
      | error p => rw [has] at h; cases h; exact ih has
      | ok rest => rw [has] at h; cases h

instance {A : Type} [Codec A] [ExpectingCodec A] : ExpectingCodec (List A) where
  encode_panic as why h := by
    change (if 2 ^ 32 ≤ as.length then (.error (.expect "Compact encodes length") : Except Panic _)
      else (do return encodeCompact as.length ++ (← encodeAll as))) = .error why at h
    split at h
    · cases h; exact ⟨_, rfl⟩
    · cases has : encodeAll as with
      | error p => rw [has] at h; cases h; exact isExpect_encodeAll has
      | ok rest => rw [has] at h; cases h
  decode_panic := Decoder.PanicsIn.bind panicsIn_decodeCompact fun n => panicsIn_decodeMany n

/-- A length prefix is read back. -/
theorem run_decodeCompact {x : Nat} (h : x < 2 ^ 32) (rest : List UInt8) :
    decodeCompact.run (encodeCompact x ++ rest) = .ok (x, rest) := by
  have hhead : ∀ (y : Nat) (rest : List UInt8),
      Decoder.readByte.run (UInt8.ofNat y :: rest) = .ok (UInt8.ofNat y, rest) := fun _ _ => rfl
  have hmode : ∀ y : Nat, (UInt8.ofNat y).toNat % 4 = y % 4 := fun y => by
    rw [UInt8.toNat_ofNat']
    omega
  have hvalue : ∀ {n y : Nat}, y < 256 ^ (n + 1) →
      ofLeBytes (UInt8.ofNat y :: leBytes n (y / 256)) = y := fun hy => ofLeBytes_leBytes hy
  unfold encodeCompact
  split
  · have hbyte : (UInt8.ofNat (x * 4)).toNat = x * 4 := by
      rw [UInt8.toNat_ofNat']
      omega
    rw [leBytes, List.cons_append, decodeCompact, StateT.run_bind, hhead, Decoder.ok_bind, hmode,
      show x * 4 % 4 = 0 by omega]
    simp only [hbyte, show x * 4 / 4 = x by omega]
    rfl
  split
  · have hx : (x * 4 + 1) / 4 = x := by omega
    rw [leBytes, List.cons_append, decodeCompact, StateT.run_bind, hhead, Decoder.ok_bind, hmode,
      show (x * 4 + 1) % 4 = 1 by omega]
    simp only [StateT.run_bind, Decoder.run_readBytes (length_leBytes 1 _), Decoder.ok_bind]
    rw [hvalue (by omega), hx, if_pos (by omega)]
    rfl
  split
  · have hx : (x * 4 + 2) / 4 = x := by omega
    rw [leBytes, List.cons_append, decodeCompact, StateT.run_bind, hhead, Decoder.ok_bind, hmode,
      show (x * 4 + 2) % 4 = 2 by omega]
    simp only [StateT.run_bind, Decoder.run_readBytes (length_leBytes 3 _), Decoder.ok_bind]
    rw [hvalue (by omega), hx, if_pos (by omega)]
    rfl
  · have hthree : Decoder.readByte.run (3 :: leBytes 4 x ++ rest) = .ok (3, leBytes 4 x ++ rest) :=
      rfl
    have hrest := run_decodeLe (n := 4) (x := x) (by omega) rest
    rw [decodeCompact, StateT.run_bind, hthree, Decoder.ok_bind,
      show (3 : UInt8).toNat % 4 = 3 from rfl]
    simp only [show (3 : UInt8).toNat / 4 = 0 from rfl, ↓reduceIte, StateT.run_bind, hrest,
      Decoder.ok_bind]
    rw [if_pos (by omega)]
    rfl

/-- What is decoded as a length is its compact encoding: no other is accepted. -/
theorem of_run_decodeCompact {x : Nat} {input rest : List UInt8}
    (hdecode : decodeCompact.run input = .ok (x, rest)) :
    x < 2 ^ 32 ∧ input = encodeCompact x ++ rest := by
  obtain ⟨head, mid, hhead, h⟩ := Decoder.of_run_bind hdecode
  obtain rfl := Decoder.of_run_readByte hhead
  have hlt := head.toNat_lt
  -- The modes that shift the length by two bits.
  have hshift : ∀ {k : Nat} {tail : List UInt8}, (Decoder.readBytes k).run mid = .ok (tail, rest) →
      ofLeBytes (head :: tail) < 256 ^ (k + 1) ∧ ofLeBytes (head :: tail) % 4 = head.toNat % 4 ∧
        head :: mid = leBytes (k + 1) (ofLeBytes (head :: tail)) ++ rest := by
    intro k tail htail
    obtain ⟨rfl, rfl⟩ := Decoder.of_run_readBytes htail
    refine ⟨ofLeBytes_lt (head :: tail), ?_, ?_⟩
    · rw [ofLeBytes]
      omega
    · have hbytes := leBytes_ofLeBytes (head :: tail)
      rw [List.length_cons] at hbytes
      rw [hbytes, List.cons_append]
  have hchecked : ∀ {limit y : Nat} {left : List UInt8},
      (if limit < y then pure y else Decoder.fail "out of range" : Decoder Nat).run left =
        .ok (x, rest) → limit < x ∧ x = y ∧ left = rest := by
    intro limit y left h
    split at h
    · obtain ⟨rfl, rfl⟩ := Decoder.of_run_pure h
      exact ⟨‹_›, rfl, rfl⟩
    · cases h
  unfold encodeCompact
  split at h
  · rename_i hmode
    obtain ⟨rfl, rfl⟩ := Decoder.of_run_pure h
    have hvalue : head.toNat / 4 * 4 = head.toNat := by omega
    refine ⟨by omega, ?_⟩
    rw [if_pos (by omega), hvalue, leBytes, leBytes, UInt8.ofNat_toNat]
    rfl
  · rename_i hmode
    obtain ⟨tail, left, htail, h⟩ := Decoder.of_run_bind h
    obtain ⟨hlimit, hx, rfl⟩ := hchecked h
    obtain ⟨hlt, hmod, hinput⟩ := hshift htail
    have hvalue : x * 4 + 1 = ofLeBytes (head :: tail) := by omega
    refine ⟨by omega, ?_⟩
    rw [if_neg (by omega), if_pos (by omega), hvalue, hinput]
  · rename_i hmode
    obtain ⟨tail, left, htail, h⟩ := Decoder.of_run_bind h
    obtain ⟨hlimit, hx, rfl⟩ := hchecked h
    obtain ⟨hlt, hmod, hinput⟩ := hshift htail
    have hvalue : x * 4 + 2 = ofLeBytes (head :: tail) := by omega
    refine ⟨by omega, ?_⟩
    rw [if_neg (by omega), if_neg (by omega), if_pos (by omega), hvalue, hinput]
  · split at h
    · obtain ⟨y, left, hy, h⟩ := Decoder.of_run_bind h
      obtain ⟨hlimit, rfl, rfl⟩ := hchecked h
      obtain ⟨hlt, rfl⟩ := of_run_decodeLe hy
      have hmode : ¬ head.toNat % 4 = 0 ∧ ¬ head.toNat % 4 = 1 ∧ ¬ head.toNat % 4 = 2 :=
        ⟨‹_›, ‹_›, ‹_›⟩
      have hthree : head = 3 := by
        rw [← UInt8.toNat_inj]
        change head.toNat = 3
        omega
      refine ⟨by omega, ?_⟩
      rw [if_neg (by omega), if_neg (by omega), if_neg (by omega), hthree, List.cons_append]
    · cases h
section
variable {A : Type} [Codec A] [LawfulCodec A]

theorem run_decodeMany {as : List A} {bytes : List UInt8} (h : encodeAll as = .ok bytes)
    (rest : List UInt8) : (decodeMany as.length).run (bytes ++ rest) = .ok (as, rest) := by
  induction as generalizing bytes with
  | nil =>
    obtain rfl := Except.ok.inj h
    rfl
  | cons a as ih =>
    rw [encodeAll] at h
    cases ha : Codec.encode a with
    | error why => rw [ha] at h; cases h
    | ok first =>
      cases has : encodeAll as with
      | error why => rw [ha, has] at h; cases h
      | ok others =>
        rw [ha, has] at h
        obtain rfl := Except.ok.inj h
        rw [List.length_cons, decodeMany, StateT.run_bind, List.append_assoc,
          LawfulCodec.decode_encode ha, Decoder.ok_bind, StateT.run_bind, ih has]
        rfl

omit [LawfulCodec A] in
theorem encode_list (as : List A) : (Codec.encode as : Except Panic (List UInt8)) =
    if 2 ^ 32 ≤ as.length then .error (.expect "Compact encodes length")
    else do return encodeCompact as.length ++ (← encodeAll as) := by
  change (if 2 ^ 32 ≤ as.length then (.error (.expect "Compact encodes length") : Except Panic _)
    else (do return encodeCompact as.length ++ (← encodeAll as))) = _
  rfl

instance : LawfulCodec (List A) where
  decode_encode := by
    intro as bytes h rest
    rw [encode_list] at h
    split at h
    · cases h
    · rename_i hlen
      cases has : encodeAll as with
      | error why => rw [has] at h; cases h
      | ok others =>
        rw [has] at h
        obtain rfl := Except.ok.inj h
        change (do decodeMany (← decodeCompact) : Decoder (List A)).run _ = _
        rw [StateT.run_bind, List.append_assoc, run_decodeCompact (by omega), Decoder.ok_bind,
          run_decodeMany has]

end

end SonicChain
