import SonicChain.Runtimes
import SonicChain.TypedStorage

/-! # Malformed stored bytes

Any bytes may stand under a key of a storage map.  What does not decode reads as
the default (`unwrap_or_default`), except where `Decode for Public` steps in: it
panics on less than an account, and takes no input at all for the default
account.  So `balanceOf` reads the default from whatever is malformed, and the
three staking maps do so exactly where their bytes do not end in the middle of an
account, or before one that a length prefix announces
(`reads_malformed_as_default_iff`).
-/

namespace SonicChain
open StoreProgram

/-! ## Reading through the runtimes -/

section
variable [Ed25519] {A : Type} [Codec A] [Inhabited A]

/-- Where a runtime holds the bytes under the key of an account, `read` returns a
value as expected; through the concurrent runtime it may be refused instead. -/
def StorageMap.ReadsAs (map : StorageMap A) (bytes : Value) (expected : A → Prop) : Prop :=
  (∀ (state : StateMap) (a : AccountId), state.data (map.keyFor a) = bytes →
    ∃ v, SequentialRuntime.run (map.read a).run state = .ok (.ok v, state) ∧ expected v) ∧
  ∀ (id : ThreadId) (cache : Cache) (state : StateMap) (a : AccountId),
    overlay (fun k => cache.lookup k) state.data (map.keyFor a) = bytes →
    (∃ v state', ConcurrentRuntime.run id (map.read a).run cache state =
        .ok (.ok v, cache, state') ∧ expected v) ∨
      ∃ owner, owner ≠ id ∧ state.taint (map.keyFor a) = some owner ∧
        ConcurrentRuntime.run id (map.read a).run cache state = .ok (.error owner, cache, state)

/-- **Malformed bytes read as the default**: no bytes make `read` panic, and those of
an encoding cut short give the default. -/
def StorageMap.ReadsMalformedAsDefault (map : StorageMap A) (bytes : Value) : Prop :=
  map.ReadsAs bytes fun v => CutShort A bytes → v = default

/-- A read asks for the key, and decodes the answer. -/
theorem StorageMap.read_run_eq (map : StorageMap A) (a : AccountId) :
    (map.read a).run = .read (map.keyFor a) fun
      | .error owner => .done (.error owner)
      | .ok encoded =>
        match (decodeOrDefault encoded : Except Panic A) with
        | .ok v => .done (.ok v)
        | .error why => .fault why := by
  refine congrArg (StoreProgram.read _) (funext fun outcome => ?_)
  cases outcome with
  | error owner => rfl
  | ok encoded =>
    change (orPanic (decodeOrDefault encoded) : ExceptT ThreadId Storage A).run = _
    dsimp only
    cases (decodeOrDefault encoded : Except Panic A) <;> rfl

theorem StorageMap.ReadsAs.of_decode {map : StorageMap A} {bytes : Value} {expected : A → Prop}
    {v : A} (hdecode : decodeOrDefault bytes = .ok v) (hv : expected v) :
    map.ReadsAs bytes expected := by
  constructor
  · intro state a hheld
    refine ⟨v, ?_, hv⟩
    rw [read_run_eq, SequentialRuntime.run, SequentialRuntime.read_eq, hheld]
    simp only [hdecode]
    rfl
  · intro id cache state a hheld
    -- What the runtime answers, from its cache or from the state.
    have hanswer : (∃ state', ConcurrentRuntime.read id cache state (map.keyFor a) =
          .ok (.ok bytes, state')) ∨
        ∃ owner, owner ≠ id ∧ state.taint (map.keyFor a) = some owner ∧
          ConcurrentRuntime.read id cache state (map.keyFor a) = .ok (.error owner, state) := by
      cases hcached : cache.lookup (map.keyFor a) with
      | some value =>
        rw [overlay_of_some (c := fun k => cache.lookup k) hcached] at hheld
        exact .inl ⟨state, by rw [ConcurrentRuntime.read, hcached, hheld]⟩
      | none =>
        rcases @ConcurrentRuntime.read_cases id cache state (map.keyFor a)
          (fun h => absurd hcached h) with ⟨state', hread, -⟩ | hrefused
        · exact .inl ⟨state', hheld ▸ hread⟩
        · exact .inr hrefused
    rw [read_run_eq, ConcurrentRuntime.run]
    rcases hanswer with ⟨state', hread⟩ | ⟨owner, hne, howner, hread⟩
    · refine .inl ⟨v, state', ?_, hv⟩
      rw [hread]
      simp only [hdecode]
      rfl
    · refine .inr ⟨owner, hne, howner, ?_⟩
      rw [hread]
      rfl

theorem StorageMap.ReadsAs.decode {map : StorageMap A} {bytes : Value} {expected : A → Prop}
    (h : map.ReadsAs bytes expected) : ∃ v, decodeOrDefault bytes = .ok v ∧ expected v := by
  have hheld : (SequentialRuntime.write (∅ : StateMap) (map.keyFor default) bytes).data
      (map.keyFor default) = bytes := by
    rw [SequentialRuntime.data_write, Function.update_self]
  obtain ⟨v, hrun, hv⟩ := h.1 _ default hheld
  refine ⟨v, ?_, hv⟩
  rw [read_run_eq, SequentialRuntime.run, SequentialRuntime.read_eq, hheld] at hrun
  cases hdecode : (decodeOrDefault bytes : Except Panic A) with
  | error why => simp only [hdecode] at hrun; cases hrun
  | ok w =>
    simp only [hdecode] at hrun
    obtain ⟨hw, -⟩ := Prod.mk.inj (Except.ok.inj hrun)
    exact congrArg Except.ok (Except.ok.inj hw)

end

/-! ## Where nothing is made up -/

section
variable [Ed25519] {A : Type} [Codec A] [Inhabited A] {map : StorageMap A} {bytes : Value}

/-- A panic is no default. -/
theorem StorageMap.not_readsMalformedAsDefault {why : Panic}
    (h : (Codec.decode : Decoder A).run bytes = .error (.panic why)) :
    ¬ map.ReadsMalformedAsDefault bytes := by
  intro hreads
  obtain ⟨v, hdecode, -⟩ := hreads.decode
  rw [decodeOrDefault, h] at hdecode
  cases hdecode

/-- What does not decode reads as the default. -/
theorem StorageMap.readsMalformedAsDefault_of_error {text : String}
    (h : (Codec.decode : Decoder A).run bytes = .error (.error text)) :
    map.ReadsMalformedAsDefault bytes :=
  .of_decode (v := default) (by rw [decodeOrDefault, h]) fun _ => rfl

/-- A decoder that reads back what was encoded, and does not panic, decodes no
encoding that is cut short. -/
theorem StorageMap.readsMalformedAsDefault_of_readsBack [LawfulCodec A] (hback : ReadsBack A bytes)
    (hpanic : ∀ why, (Codec.decode : Decoder A).run bytes ≠ .error (.panic why)) :
    map.ReadsMalformedAsDefault bytes := by
  cases hrun : (Codec.decode : Decoder A).run bytes with
  | error e =>
    cases e with
    | panic why => exact absurd hrun (hpanic why)
    | error text => exact readsMalformedAsDefault_of_error hrun
  | ok out =>
    refine .of_decode (v := out.1) (by rw [decodeOrDefault, hrun]) fun hcut => ?_
    exact absurd hrun (hback.not_ok hcut out)

end

/-! ## The four maps -/

theorem readsBack_accountBalance (input : List UInt8) : ReadsBack AccountBalance input := by
  intro b rest h
  obtain ⟨free, mid, hfree, h⟩ := Decoder.of_run_bind h
  obtain ⟨reserved, left, hreserved, h⟩ := Decoder.of_run_bind h
  obtain ⟨rfl, rfl⟩ := Decoder.of_run_pure h
  obtain ⟨bytes, hbytes, rfl⟩ := readsBack_u128 input free mid hfree
  obtain ⟨bytes', hbytes', rfl⟩ := readsBack_u128 mid reserved rest hreserved
  obtain rfl := Except.ok.inj hbytes
  obtain rfl := Except.ok.inj hbytes'
  exact ⟨_, AccountBalance.encode_eq _, (List.append_assoc ..).symm⟩

theorem readsBack_stakingRole (input : List UInt8) : ReadsBack StakingRole input := by
  intro role rest hdecode
  obtain ⟨byte, mid, hbyte, h⟩ := Decoder.of_run_bind hdecode
  obtain rfl := Decoder.of_run_readByte hbyte
  split at h
  · obtain ⟨rfl, rfl⟩ := Decoder.of_run_pure h
    exact ⟨_, rfl, rfl⟩
  · obtain ⟨rfl, rfl⟩ := Decoder.of_run_pure h
    exact ⟨_, rfl, rfl⟩
  · obtain ⟨rfl, rfl⟩ := Decoder.of_run_pure h
    exact ⟨_, rfl, rfl⟩
  · cases h

section
variable [Ed25519] {bytes : Value}

theorem balanceOf_readsMalformedAsDefault (bytes : Value) :
    balanceOf.ReadsMalformedAsDefault bytes :=
  StorageMap.readsMalformedAsDefault_of_readsBack (readsBack_accountBalance bytes)
    fun why hpanic => @AccountBalance.panicsIn_decode (fun _ => False) bytes why hpanic

theorem readsBack_accountId (h : 32 ≤ bytes.length) : ReadsBack AccountId bytes := by
  intro a rest hrun
  rcases Public.decode_long h with ⟨b, left, hbytes, hlong⟩ | hlong
  · obtain ⟨rfl, rfl⟩ := Prod.mk.inj (Except.ok.inj (hlong.symm.trans hrun))
    exact ⟨_, Public.encode_eq b, hbytes⟩
  · cases hlong.symm.trans hrun

theorem decode_accountId_ne_panic (h : ¬ (0 < bytes.length ∧ bytes.length < 32)) (why : Panic) :
    (Codec.decode : Decoder AccountId).run bytes ≠ .error (.panic why) := by
  intro hpanic
  by_cases hempty : bytes.length = 0
  · obtain rfl := List.length_eq_zero_iff.mp hempty
    cases Public.decode_nil.symm.trans hpanic
  · rcases Public.decode_long (by omega : 32 ≤ bytes.length) with ⟨a, rest, -, hlong⟩ | hlong
    · cases hlong.symm.trans hpanic
    · cases hlong.symm.trans hpanic

/-- The bytes of an account, cut in the middle, panic. -/
theorem bonded_readsMalformedAsDefault_iff :
    bonded.ReadsMalformedAsDefault bytes ↔ ¬ (0 < bytes.length ∧ bytes.length < 32) := by
  constructor
  · intro h hmiddle
    exact StorageMap.not_readsMalformedAsDefault (Public.decode_short hmiddle) h
  · intro h
    by_cases hempty : bytes.length = 0
    · obtain rfl := List.length_eq_zero_iff.mp hempty
      exact .of_decode (v := default) rfl fun _ => rfl
    · exact StorageMap.readsMalformedAsDefault_of_readsBack (readsBack_accountId (by omega))
        (decode_accountId_ne_panic h)

/-- The bytes of a ledger, cut in the middle of its controller, panic.  Cut before
its controller, they have the default account for it, but no role. -/
theorem ledgerOf_readsMalformedAsDefault_iff :
    ledgerOf.ReadsMalformedAsDefault bytes ↔ ¬ (16 < bytes.length ∧ bytes.length < 48) := by
  constructor
  · intro h hmiddle
    have hlong : 16 ≤ bytes.length := by omega
    have hshort : 0 < (bytes.drop 16).length ∧ (bytes.drop 16).length < 32 := by
      rw [List.length_drop]
      omega
    have hvalue := run_decode_u128 hlong
    have hcontroller := Public.decode_short hshort
    exact StorageMap.not_readsMalformedAsDefault
      ((Decoder.run_bind_of_ok hvalue).trans (Decoder.run_bind_of_error hcontroller)) h
  · intro h
    have hmid : ∀ value mid, (Codec.decode : Decoder Balance).run bytes = .ok (value, mid) →
        bytes = leBytes 16 value.toNat ++ mid ∧ bytes.length = 16 + mid.length := by
      intro value mid hvalue
      obtain ⟨front, hfront, rfl⟩ := readsBack_u128 bytes value mid hvalue
      obtain rfl := Except.ok.inj hfront
      exact ⟨rfl, by rw [List.length_append, length_leBytes]⟩
    refine StorageMap.readsMalformedAsDefault_of_readsBack (fun l rest hrun => ?_)
      fun why hpanic => ?_
    · obtain ⟨value, mid, hvalue, hrun⟩ := Decoder.of_run_bind hrun
      obtain ⟨controller, left, hcontroller, hrun⟩ := Decoder.of_run_bind hrun
      obtain ⟨role, left', hrole, hrun⟩ := Decoder.of_run_bind hrun
      obtain ⟨rfl, rfl⟩ := Decoder.of_run_pure hrun
      obtain ⟨hbytes, hlength⟩ := hmid value mid hvalue
      by_cases hempty : mid.length = 0
      · -- The default account takes nothing, and nothing is left for the role.
        obtain rfl := List.length_eq_zero_iff.mp hempty
        obtain ⟨-, rfl⟩ := Prod.mk.inj (Except.ok.inj (Public.decode_nil.symm.trans hcontroller))
        cases hrole
      · have hlong : 32 ≤ mid.length := by omega
        obtain ⟨front, hfront, rfl⟩ := readsBack_accountId hlong controller left hcontroller
        obtain ⟨last, hlast, rfl⟩ := readsBack_stakingRole left role rest hrole
        refine ⟨leBytes 16 value.toNat ++ front ++ last, ?_, ?_⟩
        · obtain rfl := Except.ok.inj hfront
          obtain rfl := Except.ok.inj hlast
          rfl
        · rw [hbytes, List.append_assoc, List.append_assoc]
    · rcases Decoder.of_run_bind_error hpanic with hpanic | ⟨value, mid, hvalue, hpanic⟩
      · exact @panicsIn_decode_u128 (fun _ => False) bytes why hpanic
      obtain ⟨-, hlength⟩ := hmid value mid hvalue
      rcases Decoder.of_run_bind_error hpanic with hpanic | ⟨controller, left, -, hpanic⟩
      · exact decode_accountId_ne_panic (by omega) why hpanic
      rcases Decoder.of_run_bind_error hpanic with hpanic | ⟨role, left', -, hpanic⟩
      · exact @StakingRole.panicsIn_decode (fun _ => False) left why hpanic
      · cases hpanic

/-! ### Nominations -/

/-- A length prefix, and then fewer accounts and less than one more than it says. -/
def AnnouncesMore (bytes : Value) : Prop :=
  ∃ (n : Nat) (as : List AccountId) (tail : List UInt8), n < 2 ^ 32 ∧ as.length < n ∧
    tail.length < 32 ∧ bytes = encodeCompact n ++ (as.flatMap Public.bytes ++ tail)

theorem encodeAll_accounts (as : List AccountId) : encodeAll as = .ok (as.flatMap Public.bytes) := by
  induction as with
  | nil => rfl
  | cons a as ih =>
    rw [encodeAll, ih, List.flatMap_cons]
    rfl

theorem encode_accounts {as : List AccountId} (h : as.length < 2 ^ 32) :
    Codec.encode as = .ok (encodeCompact as.length ++ as.flatMap Public.bytes) := by
  rw [encode_list, if_neg (by omega), encodeAll_accounts]
  rfl

theorem length_flatMap_bytes (as : List AccountId) :
    (as.flatMap Public.bytes).length = 32 * as.length := by
  induction as with
  | nil => rfl
  | cons a as ih =>
    rw [List.flatMap_cons, List.length_append, a.length_bytes, ih, List.length_cons]
    omega

/-- Decoding `n` accounts: the input ends first, or is refused, or they are there. -/
theorem decodeMany_accounts (n : Nat) (input : List UInt8) :
    (∃ (as : List AccountId) (tail : List UInt8), as.length < n ∧ tail.length < 32 ∧
        input = as.flatMap Public.bytes ++ tail) ∨
      (∃ text, (decodeMany n : Decoder (List AccountId)).run input = .error (.error text)) ∨
      ∃ (as : List AccountId) (rest : List UInt8), as.length = n ∧
        input = as.flatMap Public.bytes ++ rest ∧ (decodeMany n).run input = .ok (as, rest) := by
  induction n generalizing input with
  | zero => exact .inr (.inr ⟨[], input, rfl, rfl, rfl⟩)
  | succ n ih =>
    by_cases hshort : input.length < 32
    · exact .inl ⟨[], input, Nat.succ_pos n, hshort, rfl⟩
    rcases Public.decode_long (by omega : 32 ≤ input.length) with ⟨a, rest, rfl, ha⟩ | hrefused
    · rcases ih rest with ⟨as, tail, hlength, htail, rfl⟩ | ⟨text, hmany⟩ |
        ⟨as, left, hlength, rfl, hmany⟩
      · refine .inl ⟨a :: as, tail, by rw [List.length_cons]; omega, htail, ?_⟩
        rw [List.flatMap_cons, List.append_assoc]
      · refine .inr (.inl ⟨text, ?_⟩)
        exact (Decoder.run_bind_of_ok ha).trans (Decoder.run_bind_of_error hmany)
      · refine .inr (.inr ⟨a :: as, left, by rw [List.length_cons, hlength], ?_, ?_⟩)
        · rw [List.flatMap_cons, List.append_assoc]
        · exact (Decoder.run_bind_of_ok ha).trans (Decoder.run_bind_of_ok hmany)
    · exact .inr (.inl ⟨_, Decoder.run_bind_of_error hrefused⟩)

/-- Where the input ends between two accounts, the others are made up; where it ends
in the middle of one, decoding panics. -/
theorem decodeMany_cut {n : Nat} {as : List AccountId} {tail : List UInt8} (hn : as.length < n)
    (htail : tail.length < 32) :
    (decodeMany n).run (as.flatMap Public.bytes ++ tail) =
      if tail = [] then .ok (as ++ List.replicate (n - as.length) default, [])
      else .error (.panic (.expect "Encoded public mut be exactly `PUBLIC_KEY_LENGTH`")) := by
  induction as generalizing n with
  | nil =>
    by_cases hnil : tail = []
    · subst hnil
      rw [if_pos rfl]
      clear hn
      induction n with
      | zero => rfl
      | succ n ih =>
        exact (Decoder.run_bind_of_ok Public.decode_nil).trans (Decoder.run_bind_of_ok ih)
    · rw [if_neg hnil]
      obtain ⟨m, rfl⟩ := Nat.exists_eq_succ_of_ne_zero (Nat.ne_of_gt hn)
      have hlength := List.length_pos_iff.mpr hnil
      exact Decoder.run_bind_of_error (Public.decode_short ⟨hlength, htail⟩)
  | cons a as ih =>
    obtain ⟨m, rfl⟩ := Nat.exists_eq_succ_of_ne_zero (Nat.ne_of_gt (Nat.zero_lt_of_lt hn))
    have hrest := ih (Nat.lt_of_succ_lt_succ hn)
    have ha := Public.run_decode a (as.flatMap Public.bytes ++ tail)
    rw [List.flatMap_cons, List.append_assoc]
    refine (Decoder.run_bind_of_ok ha).trans ?_
    by_cases hnil : tail = []
    · rw [if_pos hnil] at hrest ⊢
      refine (Decoder.run_bind_of_ok hrest).trans ?_
      rw [List.length_cons, Nat.succ_sub_succ]
      rfl
    · rw [if_neg hnil] at hrest ⊢
      exact Decoder.run_bind_of_error hrest

/-- Nominations cut before or in the middle of an account that their length prefix
announces are made up, or panic. -/
theorem nominations_readsMalformedAsDefault_iff :
    nominations.ReadsMalformedAsDefault bytes ↔ ¬ AnnouncesMore bytes := by
  constructor
  · rintro h ⟨n, as, tail, hn, hlength, htail, rfl⟩
    have hcompact := run_decodeCompact hn (as.flatMap Public.bytes ++ tail)
    have hmany := decodeMany_cut hlength htail
    by_cases hnil : tail = []
    · subst hnil
      rw [if_pos rfl] at hmany
      obtain ⟨v, hv, hdefault⟩ := h.decode
      have hrun : (Codec.decode : Decoder (List AccountId)).run _ = _ :=
        (Decoder.run_bind_of_ok hcompact).trans hmany
      rw [StorageMap.decodeOrDefault, hrun] at hv
      obtain rfl := Except.ok.inj hv
      have hwhole : (as ++ List.replicate (n - as.length) (default : AccountId)).length = n := by
        rw [List.length_append, List.length_replicate]
        omega
      have hcut : CutShort (List AccountId) (encodeCompact n ++ (as.flatMap Public.bytes ++ [])) := by
        refine ⟨as ++ List.replicate (n - as.length) default,
          (List.replicate (n - as.length) (default : AccountId)).flatMap Public.bytes, ?_, ?_⟩
        · intro hmore
          have := length_flatMap_bytes (List.replicate (n - as.length) default)
          rw [hmore, List.length_replicate, List.length_nil] at this
          omega
        · rw [encode_accounts (by omega), hwhole, List.flatMap_append, List.append_nil,
            List.append_assoc]
      have hlen := congrArg List.length (hdefault hcut)
      rw [hwhole] at hlen
      change n = 0 at hlen
      omega
    · rw [if_neg hnil] at hmany
      exact StorageMap.not_readsMalformedAsDefault
        ((Decoder.run_bind_of_ok hcompact).trans hmany) h
  · intro h
    cases hcompact : decodeCompact.run bytes with
    | error e =>
      cases e with
      | panic why => exact (@panicsIn_decodeCompact (fun _ => False) bytes why hcompact).elim
      | error text =>
        exact StorageMap.readsMalformedAsDefault_of_error (Decoder.run_bind_of_error hcompact)
    | ok out =>
      obtain ⟨n, rest⟩ := out
      obtain ⟨hn, rfl⟩ := of_run_decodeCompact hcompact
      rcases decodeMany_accounts n rest with ⟨as, tail, hlength, htail, rfl⟩ | ⟨text, hmany⟩ |
        ⟨as, left, hlength, rfl, hmany⟩
      · exact absurd ⟨n, as, tail, hn, hlength, htail, rfl⟩ h
      · exact StorageMap.readsMalformedAsDefault_of_error
          ((Decoder.run_bind_of_ok hcompact).trans hmany)
      · have hrun : (Codec.decode : Decoder (List AccountId)).run _ = _ :=
          (Decoder.run_bind_of_ok hcompact).trans hmany
        have hencode : Codec.encode as = _ := encode_accounts (by omega)
        refine StorageMap.readsMalformedAsDefault_of_readsBack (fun bs left' hrun' => ?_)
          fun why hpanic => ?_
        · obtain ⟨rfl, rfl⟩ := Prod.mk.inj (Except.ok.inj (hrun.symm.trans hrun'))
          exact ⟨_, hencode, by rw [hlength, List.append_assoc]⟩
        · cases hrun.symm.trans hpanic

/-- **Malformed bytes read as the default, except where an account is cut.**  The
balances always do.  A ledger does unless it ends in the middle of its controller, a
bond unless it ends in the middle of the stash, and nominations unless they end before
the last account that their length announces does. -/
theorem reads_malformed_as_default_iff (bytes : Value) :
    balanceOf.ReadsMalformedAsDefault bytes ∧
      (ledgerOf.ReadsMalformedAsDefault bytes ↔ ¬ (16 < bytes.length ∧ bytes.length < 48)) ∧
      (bonded.ReadsMalformedAsDefault bytes ↔ ¬ (0 < bytes.length ∧ bytes.length < 32)) ∧
      (nominations.ReadsMalformedAsDefault bytes ↔ ¬ AnnouncesMore bytes) :=
  ⟨balanceOf_readsMalformedAsDefault bytes, ledgerOf_readsMalformedAsDefault_iff,
    bonded_readsMalformedAsDefault_iff, nominations_readsMalformedAsDefault_iff⟩

end

section
open Testing

/-- One byte under the key of a bond makes its read panic; the length prefix of two
nominations reads as the default account, twice. -/
theorem malformed_not_default :
    SequentialRuntime.run (bonded.read alice).run
        (SequentialRuntime.write ∅ (bonded.keyFor alice) [7]) =
      .error (.expect "Encoded public mut be exactly `PUBLIC_KEY_LENGTH`") ∧
    nominations.get (fun _ => [8]) alice = .ok [default, default] ∧
    ¬ ∀ bytes, balanceOf.ReadsMalformedAsDefault bytes ∧ ledgerOf.ReadsMalformedAsDefault bytes ∧
      bonded.ReadsMalformedAsDefault bytes ∧ nominations.ReadsMalformedAsDefault bytes := by
  refine ⟨?_, ?_, fun h => ?_⟩
  · rw [StorageMap.read_run_eq, SequentialRuntime.run, SequentialRuntime.read_eq,
      SequentialRuntime.data_write, Function.update_self]
    rfl
  · decide +kernel
  · obtain ⟨-, -, hbonded, -⟩ := h [7]
    exact bonded_readsMalformedAsDefault_iff.mp hbonded ⟨by decide, by decide⟩

end
end SonicChain
