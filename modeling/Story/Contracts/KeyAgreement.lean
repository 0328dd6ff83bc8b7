/-
# Story.Contracts.KeyAgreement -- the two layers agree on public keys

The contracts derive a candidate for the second coordinate of a key without checking it,
and rely on the check that the point lies on the curve. The consensus client uses another
library, which takes a root of the right parity. That the two meet rests on three facts
about the modulus: it is prime, it leaves 3 when divided by 4, so that one power is a root
of every square, and minus seven has no cube root, so that no key has the root zero.
-/
import Story.Contracts.Secp256k1Verifier
import Story.EvmStaking.Events
import Story.Sdk.Ledger

namespace Story.Contracts

open Story.Effect Story.Errors Story.Eth Story.Sdk Story.Evm Story.Numbers
open Story.EvmEngine (ofBytesBE toBytesBE ofBytesBE_lt ofBytesBE_toBytesBE toBytesBE_ofBytesBE)
open Story.EvmStaking (pubKeyBytesToCosmos cosmosPubkeyToEVMAddress)

/-! ## The modulus

The certificate of a prime names a number whose order is the prime less one, and the prime
factors of that. -/

theorem prime_13331831 : Nat.Prime 13331831 := by norm_num

theorem prime_7240687 : Nat.Prime 7240687 := by norm_num

theorem prime_107590001 : Nat.Prime 107590001 := by norm_num

theorem prime_173378833005251801 : Nat.Prime 173378833005251801 := by
  apply prime_of_powMod 58 6 [2, 2, 2, 5, 5, 2621, 24809, 13331831]
  · decide
  · decide
  · exact ⟨by norm_num, by norm_num, by norm_num, by norm_num, by norm_num, by norm_num,
      by norm_num, prime_13331831⟩
  · decide
  · decide +kernel
  · decide +kernel

theorem prime_22149492674086928081353 : Nat.Prime 22149492674086928081353 := by
  apply prime_of_powMod 75 5 [2, 2, 2, 3, 5323, 173378833005251801]
  · decide
  · decide
  · exact ⟨by norm_num, by norm_num, by norm_num, by norm_num, by norm_num,
      prime_173378833005251801⟩
  · decide
  · decide +kernel
  · decide +kernel

theorem prime_132896956044521568488119 : Nat.Prime 132896956044521568488119 := by
  apply prime_of_powMod 77 6 [2, 3, 22149492674086928081353]
  · decide
  · decide
  · exact ⟨by norm_num, by norm_num, prime_22149492674086928081353⟩
  · decide
  · decide +kernel
  · decide +kernel

theorem prime_255515944373312847190720520512484175977 :
    Nat.Prime 255515944373312847190720520512484175977 := by
  apply prime_of_powMod 128 3
    [2, 2, 2, 7, 7, 11, 1627, 2657, 4423, 41201, 96557, 7240687, 107590001]
  · decide
  · decide
  · exact ⟨by norm_num, by norm_num, by norm_num, by norm_num, by norm_num, by norm_num,
      by norm_num, by norm_num, by norm_num, by norm_num, by norm_num, prime_7240687,
      prime_107590001⟩
  · decide
  · decide +kernel
  · decide +kernel

theorem prime_205115282021455665897114700593932402728804164701536103180137503955397371 :
    Nat.Prime 205115282021455665897114700593932402728804164701536103180137503955397371 := by
  apply prime_of_powMod 237 10 [2, 3, 5, 29, 29, 31, 7723, 132896956044521568488119,
    255515944373312847190720520512484175977]
  · decide
  · decide
  · exact ⟨by norm_num, by norm_num, by norm_num, by norm_num, by norm_num, by norm_num,
      by norm_num, prime_132896956044521568488119,
      prime_255515944373312847190720520512484175977⟩
  · decide
  · decide +kernel
  · decide +kernel

/-- **The modulus is prime.** -/
theorem prime_pp : pp.Prime := by
  apply prime_of_powMod 256 3 [2, 3, 7, 13441,
    205115282021455665897114700593932402728804164701536103180137503955397371]
  · decide
  · decide
  · exact ⟨by norm_num, by norm_num, by norm_num, by norm_num,
      prime_205115282021455665897114700593932402728804164701536103180137503955397371⟩
  · decide
  · decide +kernel
  · decide +kernel

instance fact_prime_pp : Fact pp.Prime := ⟨prime_pp⟩

/-- **Minus seven has no cube root**, so no point of the curve has a second coordinate zero. -/
theorem cube_add_seven_ne_zero (x : Nat) : (x ^ 3 + 7) % pp ≠ 0 := by
  intro hzero
  have hsum : ((x ^ 3 + 7 : Nat) : ZMod pp) = 0 :=
    (ZMod.natCast_eq_zero_iff _ _).mpr (Nat.dvd_of_mod_eq_zero hzero)
  have hseven : ((pp - 7 : Nat) : ZMod pp) = -7 := by
    rw [Nat.cast_sub (by decide)]
    simp
  have hcube : (x : ZMod pp) ^ 3 = ((pp - 7 : Nat) : ZMod pp) := by
    rw [hseven]
    push_cast at hsum
    exact eq_neg_of_add_eq_zero_left hsum
  have hne : ((pp - 7 : Nat) : ZMod pp) ≠ 0 := by
    rw [Ne, ZMod.natCast_eq_zero_iff]
    decide
  have hone := pow_eq_one_of_cube hne (by decide) hcube
  rw [cast_pow_eq_one_iff (by decide), ← powMod_eq (by decide) _ (by decide : _ < 2 ^ 256)] at hone
  exact absurd hone (by decide +kernel)

/-! ## The two libraries -/

/-- The right side of the equation of the curve. -/
def curve (x : Nat) : Nat := x ^ 3 + 7

/-- The candidate for a root of the right side. -/
def candidate (x : Nat) : Nat := curve x ^ ((pp + 1) / 4) % pp

/-- The candidate or its negative, whichever has the parity of a byte. -/
def rootOf (b : UInt8) (x : Nat) : Nat :=
  if candidate x % 2 = b.toNat % 2 then candidate x else pp - candidate x

/-- A byte string of the form of a compressed key. -/
def Compressed (key : Bytes) : Prop :=
  key.length = 33 ∧ (key.headD 0 = 0x02 ∨ key.headD 0 = 0x03)

/-- The first coordinate, as a compressed key has it. -/
def firstCoordinate (key : Bytes) : Nat := ofBytesBE key.tail

/-- The address of a point. -/
def Crypto.pointAddress (V : Crypto) (x y : Nat) : Address :=
  bytesToFixed 20 (bytesOf (V.keccak256 (toBytesBE 32 x ++ toBytesBE 32 y)))

/-- `y` is the second coordinate that a compressed key stands for. -/
structure IsRoot (key : Bytes) (y : Nat) : Prop where
  lt : y < pp
  sq : y ^ 2 % pp = curve (firstCoordinate key) % pp
  parity : y % 2 = (key.headD 0).toNat % 2

/-- The libraries compute on the curve secp256k1, and hash with one hash. -/
structure OnSecp256k1 (V : Crypto) (codec : Codec) : Prop where
  deriveY : ∀ b x, b = 0x02 ∨ b = 0x03 → V.deriveY b x aa bb pp = rootOf b x
  isOnCurve : ∀ x y, V.isOnCurve x y aa bb pp = true ↔
    (0 < x ∧ x < pp) ∧ (0 < y ∧ y < pp) ∧ y ^ 2 % pp = curve x % pp
  /-- `DecompressPubkey` takes the keys whose first coordinate is that of a point. -/
  accepts : ∀ key, Compressed key → ((∃ addr, codec.decompressToAddress key = .ok addr) ↔
    firstCoordinate key < pp ∧ ∃ y, y ^ 2 % pp = curve (firstCoordinate key) % pp)
  /-- It returns the root with the parity of the first byte. -/
  root : ∀ key addr, Compressed key → codec.decompressToAddress key = .ok addr →
    ∃ y, IsRoot key y ∧ addr = V.pointAddress (firstCoordinate key) y

/-! ## Roots -/

theorem candidate_lt (x : Nat) : candidate x < pp := Nat.mod_lt _ (by decide)

theorem rootOf_le (b : UInt8) (x : Nat) : rootOf b x ≤ pp := by
  have hlt := candidate_lt x
  unfold rootOf
  split <;> omega

theorem parity_rootOf (b : UInt8) (x : Nat) : rootOf b x % 2 = b.toNat % 2 := by
  have hlt := candidate_lt x
  have hpp : pp % 2 = 1 := by decide
  unfold rootOf
  split <;> omega

theorem sq_mod_eq_iff {y x : Nat} :
    y ^ 2 % pp = curve x % pp ↔ (y : ZMod pp) ^ 2 = (curve x : ZMod pp) := by
  rw [← Nat.cast_pow, ZMod.natCast_eq_natCast_iff']

/-- **The candidate is a root** whenever there is one, and never zero. -/
theorem sq_candidate {x y : Nat} (h : y ^ 2 % pp = curve x % pp) :
    0 < candidate x ∧ (candidate x : ZMod pp) ^ 2 = (curve x : ZMod pp) := by
  have hroot := sq_pow_of_sq (by decide) (sq_mod_eq_iff.mp h)
  have hcast : (candidate x : ZMod pp) = (curve x : ZMod pp) ^ ((pp + 1) / 4) := by
    unfold candidate
    rw [ZMod.natCast_mod, Nat.cast_pow]
  rw [← hcast] at hroot
  refine ⟨Nat.pos_of_ne_zero ?_, hroot⟩
  intro hzero
  rw [hzero, Nat.cast_zero, zero_pow two_ne_zero] at hroot
  exact cube_add_seven_ne_zero x
    (Nat.mod_eq_zero_of_dvd ((ZMod.natCast_eq_zero_iff _ _).mp hroot.symm))

theorem sq_rootOf {b : UInt8} {x y : Nat} (h : y ^ 2 % pp = curve x % pp) :
    0 < rootOf b x ∧ rootOf b x < pp ∧ rootOf b x ^ 2 % pp = curve x % pp := by
  obtain ⟨hpos, hroot⟩ := sq_candidate h
  have hlt := candidate_lt x
  unfold rootOf
  split
  · exact ⟨hpos, hlt, sq_mod_eq_iff.mpr hroot⟩
  · refine ⟨by omega, by omega, sq_mod_eq_iff.mpr ?_⟩
    rw [Nat.cast_sub hlt.le, ZMod.natCast_self, zero_sub, neg_sq]
    exact hroot

/-- **The root of a key is unique.** -/
theorem IsRoot.unique {key : Bytes} {y z : Nat} (hy : IsRoot key y) (hz : IsRoot key z)
    (hpos : 0 < y) : y = z :=
  eq_of_sq_mod_of_parity (by decide) hy.lt hz.lt hpos (hy.sq.trans hz.sq.symm)
    (hy.parity.trans hz.parity.symm)

/-! ## Keys -/

variable {V : Crypto} {codec : Codec} {key : Bytes}

/-- The second coordinate, as the contracts derive it. -/
def secondCoordinate (key : Bytes) : Nat := rootOf (key.headD 0) (firstCoordinate key)

theorem firstCoordinate_lt (hkey : Compressed key) : firstCoordinate key < 256 ^ 32 := by
  have hlt := ofBytesBE_lt key.tail
  rw [List.length_tail, hkey.1] at hlt
  exact hlt

theorem secondCoordinate_lt (key : Bytes) : secondCoordinate key < 256 ^ 32 :=
  (rootOf_le _ _).trans_lt (by decide)

theorem ofBytesBE_toBytesBE_of_lt {n : Nat} (h : n < 256 ^ 32) :
    ofBytesBE (toBytesBE 32 n) = n := by
  rw [ofBytesBE_toBytesBE, Nat.mod_eq_of_lt h]

/-- The bytes of both coordinates. -/
theorem OnSecp256k1.tail_uncompressed (h : OnSecp256k1 V codec) (hkey : Compressed key) :
    (V.uncompressed key).tail
      = toBytesBE 32 (firstCoordinate key) ++ toBytesBE 32 (secondCoordinate key) := by
  unfold secondCoordinate
  rw [← h.deriveY _ _ hkey.2]
  rfl

/-- **The keys the contracts accept** are those of the points of the curve. -/
theorem OnSecp256k1.validKey_iff (h : OnSecp256k1 V codec) (hkey : Compressed key) :
    V.ValidKey key ↔
      (0 < firstCoordinate key ∧ firstCoordinate key < pp) ∧
      (0 < secondCoordinate key ∧ secondCoordinate key < pp) ∧
      secondCoordinate key ^ 2 % pp = curve (firstCoordinate key) % pp := by
  have hx := ofBytesBE_toBytesBE_of_lt (firstCoordinate_lt hkey)
  have hy := ofBytesBE_toBytesBE_of_lt (secondCoordinate_lt key)
  unfold Crypto.ValidKey
  rw [h.tail_uncompressed hkey, List.take_left' (by simp), List.drop_left' (by simp), hx, hy,
    h.isOnCurve]
  exact ⟨fun hvalid => hvalid.2.2, fun hcurve => ⟨hkey.1, hkey.2, hcurve⟩⟩

theorem OnSecp256k1.holder_eq (h : OnSecp256k1 V codec) (hkey : Compressed key) :
    V.holder key = V.pointAddress (firstCoordinate key) (secondCoordinate key) := by
  have hlen : (toBytesBE 32 (firstCoordinate key)
      ++ toBytesBE 32 (secondCoordinate key)).length ≤ 64 := by simp
  unfold Crypto.holder Crypto.uncmpPubkeyToAddress
  rw [h.tail_uncompressed hkey, List.take_of_length_le hlen]
  rfl

theorem OnSecp256k1.isRoot (h : OnSecp256k1 V codec) (hvalid : V.ValidKey key) :
    0 < secondCoordinate key ∧ IsRoot key (secondCoordinate key) := by
  obtain ⟨_, ⟨hpos, hlt⟩, hsq⟩ := (h.validKey_iff ⟨hvalid.1, hvalid.2.1⟩).mp hvalid
  exact ⟨hpos, hlt, hsq, parity_rootOf _ _⟩

/-- **The client derives the holder** of a key that the contracts accept. -/
theorem OnSecp256k1.decompress (h : OnSecp256k1 V codec) (hvalid : V.ValidKey key) :
    codec.decompressToAddress key = .ok (V.holder key) := by
  have hkey : Compressed key := ⟨hvalid.1, hvalid.2.1⟩
  obtain ⟨⟨_, hx⟩, _, hsq⟩ := (h.validKey_iff hkey).mp hvalid
  obtain ⟨addr, haddr⟩ := (h.accepts key hkey).mpr ⟨hx, _, hsq⟩
  obtain ⟨y, hy, rfl⟩ := h.root key addr hkey haddr
  obtain ⟨hpos, hroot⟩ := h.isRoot hvalid
  rw [haddr, h.holder_eq hkey, hroot.unique hy hpos]

/-- A key that the client accepts, with a first coordinate that is not zero, is accepted by
the contracts: their candidate is a root. -/
theorem OnSecp256k1.validKey_of_decompress (h : OnSecp256k1 V codec) (hkey : Compressed key)
    (hpos : 0 < firstCoordinate key) {addr : Address}
    (haddr : codec.decompressToAddress key = .ok addr) : V.ValidKey key := by
  obtain ⟨hx, y, hy⟩ := (h.accepts key hkey).mp ⟨addr, haddr⟩
  obtain ⟨hroot, hlt, hsq⟩ := sq_rootOf hy
  exact (h.validKey_iff hkey).mpr ⟨⟨hpos, hx⟩, ⟨hroot, hlt⟩, hsq⟩

theorem head_eq_of_parity {a b : UInt8} (ha : a = 0x02 ∨ a = 0x03) (hb : b = 0x02 ∨ b = 0x03)
    (h : a.toNat % 2 = b.toNat % 2) : a = b := by
  rcases ha with rfl | rfl <;> rcases hb with rfl | rfl <;> simp_all

theorem eq_of_head_of_tail {key' : Bytes} (hkey : Compressed key) (hkey' : Compressed key')
    (hhead : key.headD 0 = key'.headD 0) (htail : key.tail = key'.tail) : key = key' := by
  have hne {k : Bytes} (hk : Compressed k) : k ≠ [] := by
    rintro rfl
    exact absurd hk.1 (by decide)
  obtain ⟨a, as, rfl⟩ := List.exists_cons_of_ne_nil (hne hkey)
  obtain ⟨b, bs, rfl⟩ := List.exists_cons_of_ne_nil (hne hkey')
  exact congrArg₂ List.cons hhead htail

/-- **A key is determined by its point.** -/
theorem eq_of_coordinates {key' : Bytes} (hkey : Compressed key) (hkey' : Compressed key')
    (hx : firstCoordinate key = firstCoordinate key')
    (hy : secondCoordinate key = secondCoordinate key') : key = key' := by
  have hlen {k : Bytes} (hk : Compressed k) : k.tail.length = 32 := by
    rw [List.length_tail, hk.1]
  apply eq_of_head_of_tail hkey hkey'
  · apply head_eq_of_parity hkey.2 hkey'.2
    rw [← parity_rootOf (key.headD 0) (firstCoordinate key),
      ← parity_rootOf (key'.headD 0) (firstCoordinate key')]
    exact congrArg (· % 2) hy
  · rw [← toBytesBE_ofBytesBE key.tail, ← toBytesBE_ofBytesBE key'.tail, hlen hkey, hlen hkey']
    exact congrArg (toBytesBE 32) hx

/-! ## Agreement -/

/-- The address of a validator, as the handlers of the client derive it. -/
def validatorAddress {σ : Type} (codec : Codec) (key : Bytes) : Prog σ Address := do
  let pubkey ← pubKeyBytesToCosmos key
  cosmosPubkeyToEVMAddress codec pubkey

theorem returns_validatorAddress {σ : Type} {s t : σ} {addr : Address} :
    Returns (validatorAddress codec key) s addr t ↔
      key.length = 33 ∧ codec.decompressToAddress key = .ok addr ∧ s = t := by
  simp only [validatorAddress, returns_bind, EvmStaking.returns_pubKeyBytesToCosmos,
    EvmStaking.returns_cosmosPubkeyToEVMAddress]
  constructor
  · rintro ⟨_, _, ⟨hlen, rfl, rfl⟩, haddr, rfl⟩
    exact ⟨hlen, haddr, rfl⟩
  · rintro ⟨hlen, haddr, rfl⟩
    exact ⟨key, s, ⟨hlen, rfl, rfl⟩, haddr, rfl⟩

/-- The two layers agree on keys: what the contracts accept the client can parse, and it
derives the address that the contracts compare with; no two accepted keys are uncompressed to
one point; and the contracts refuse no key of the client but those with a first coordinate
zero. -/
structure KeysAgree (V : Crypto) (codec : Codec) : Prop where
  parsable : ∀ {σ τ : Type} (key : Bytes) (s : σ) (w : τ),
    Returns (V.verifyCmpPubkey key) s () s → ∃ addr, Returns (validatorAddress codec key) w addr w
  same_address : ∀ {σ τ : Type} (key : Bytes) (addr : Address) (s : σ) (w : τ),
    Returns (V.verifyCmpPubkeyWithExpectedAddress key addr) s () s →
      Returns (validatorAddress codec key) w addr w
  one_encoding : ∀ {σ : Type} (key key' : Bytes) (s : σ) (point : Bytes),
    Returns (V.verifyCmpPubkey key) s () s → Returns (V.verifyCmpPubkey key') s () s →
    Returns (V.uncompressPublicKey key) s point s →
    Returns (V.uncompressPublicKey key') s point s → key = key'
  accepted : ∀ {σ τ : Type} (key : Bytes) (addr : Address) (s : σ) (w : τ), Compressed key →
    0 < firstCoordinate key → Returns (validatorAddress codec key) w addr w →
    Returns (V.verifyCmpPubkey key) s () s

/-- **The execution layer and the consensus layer agree on keys.** -/
theorem keys_agree (h : OnSecp256k1 V codec) : KeysAgree V codec where
  parsable := by
    intro σ τ key s w hret
    have hvalid := (Crypto.returns_verifyCmpPubkey.mp hret).1
    exact ⟨_, returns_validatorAddress.mpr ⟨hvalid.1, h.decompress hvalid, rfl⟩⟩
  same_address := by
    intro σ τ key addr s w hret
    obtain ⟨⟨hvalid, rfl⟩, _⟩ := Crypto.returns_verifyCmpPubkeyWithExpectedAddress.mp hret
    exact returns_validatorAddress.mpr ⟨hvalid.1, h.decompress hvalid, rfl⟩
  one_encoding := by
    intro σ key key' s point hret hret' hpoint hpoint'
    obtain ⟨hkey, rfl, _⟩ := Crypto.returns_uncompressPublicKey.mp hpoint
    obtain ⟨hkey', hsame, _⟩ := Crypto.returns_uncompressPublicKey.mp hpoint'
    have hbytes := congrArg List.tail hsame
    rw [h.tail_uncompressed hkey, h.tail_uncompressed hkey'] at hbytes
    obtain ⟨hx, hy⟩ := List.append_inj hbytes (by simp)
    refine (eq_of_coordinates hkey' hkey ?_ ?_).symm
    · rw [← ofBytesBE_toBytesBE_of_lt (firstCoordinate_lt hkey'), hx,
        ofBytesBE_toBytesBE_of_lt (firstCoordinate_lt hkey)]
    · rw [← ofBytesBE_toBytesBE_of_lt (secondCoordinate_lt key'), hy,
        ofBytesBE_toBytesBE_of_lt (secondCoordinate_lt key)]
  accepted := by
    intro σ τ key addr s w hkey hpos hret
    obtain ⟨_, haddr, _⟩ := returns_validatorAddress.mp hret
    exact Crypto.returns_verifyCmpPubkey.mpr ⟨h.validKey_of_decompress hkey hpos haddr, rfl⟩

/-! ## Libraries that compute on the curve -/

theorem sample_curve (x : Nat) : x * x * x + aa * x + bb = curve x := by
  show x * x * x + 0 * x + 7 = x ^ 3 + 7
  ring

theorem sample_deriveY (b : UInt8) (x : Nat) :
    sampleCrypto.deriveY b x aa bb pp = rootOf b x := by
  have hpow : powMod pp 256 (curve x % pp) ((pp + 1) / 4) = candidate x := by
    rw [powMod_eq (by decide) _ (by decide), ← Nat.pow_mod]
    rfl
  have hparity : (candidate x + b.toNat) % 2 = 0 ↔ candidate x % 2 = b.toNat % 2 := by omega
  simp only [sampleCrypto, sample_curve, hpow, hparity]
  rfl

theorem sample_isOnCurve (x y : Nat) : sampleCrypto.isOnCurve x y aa bb pp = true ↔
    (0 < x ∧ x < pp) ∧ (0 < y ∧ y < pp) ∧ y ^ 2 % pp = curve x % pp := by
  simp only [sampleCrypto, sample_curve, Bool.and_eq_true, decide_eq_true_eq, beq_iff_eq, pow_two]
  tauto

/-- The second coordinate that the library of the contracts derives for a key. -/
def derived (key : Bytes) : Nat :=
  sampleCrypto.deriveY (key.headD 0) (firstCoordinate key) aa bb pp

/-- `DecompressPubkey` and `PubkeyToAddress`, with the same arithmetic. -/
def decompressToAddress (key : Bytes) : Except SdkError Address :=
  if firstCoordinate key < pp ∧ derived key ^ 2 % pp = curve (firstCoordinate key) % pp then
    .ok (sampleCrypto.pointAddress (firstCoordinate key) (derived key))
  else .error ⟨"invalid public key", []⟩

/-- The codec of the sample client, with the decompression of keys. -/
def curveCodec : Codec := { Ledger.codec with decompressToAddress := decompressToAddress }

theorem curveCodec_eq_ok {addr : Address} :
    curveCodec.decompressToAddress key = .ok addr ↔
      (firstCoordinate key < pp ∧
        secondCoordinate key ^ 2 % pp = curve (firstCoordinate key) % pp) ∧
      addr = sampleCrypto.pointAddress (firstCoordinate key) (secondCoordinate key) := by
  have hroot : derived key = secondCoordinate key := sample_deriveY _ _
  show decompressToAddress key = .ok addr ↔ _
  unfold decompressToAddress
  rw [hroot]
  split
  next hok => exact ⟨fun heq => ⟨hok, (Except.ok.inj heq).symm⟩, fun heq => heq.2 ▸ rfl⟩
  next hno => exact ⟨nofun, fun heq => absurd heq.1 hno⟩

theorem onSecp256k1_sample : OnSecp256k1 sampleCrypto curveCodec where
  deriveY := fun b x _ => sample_deriveY b x
  isOnCurve := sample_isOnCurve
  accepts := by
    intro key _
    constructor
    · rintro ⟨addr, haddr⟩
      obtain ⟨⟨hx, hsq⟩, _⟩ := curveCodec_eq_ok.mp haddr
      exact ⟨hx, _, hsq⟩
    · rintro ⟨hx, y, hy⟩
      exact ⟨_, curveCodec_eq_ok.mpr ⟨⟨hx, (sq_rootOf hy).2.2⟩, rfl⟩⟩
  root := by
    intro key addr _ haddr
    obtain ⟨⟨_, hsq⟩, rfl⟩ := curveCodec_eq_ok.mp haddr
    exact ⟨_, ⟨(sq_rootOf hsq).2.1, hsq, parity_rootOf _ _⟩, rfl⟩

/-- The libraries agree on the two keys with the first coordinate of the generator, which have
different holders. -/
theorem generator_keys_agree :
    KeysAgree sampleCrypto curveCodec ∧
      (∀ key ∈ [evenKey, oddKey], sampleCrypto.ValidKey key ∧
        Returns (validatorAddress curveCodec key) () (sampleCrypto.holder key) ()) ∧
      sampleCrypto.holder evenKey ≠ sampleCrypto.holder oddKey := by
  have hvalid : ∀ key ∈ [evenKey, oddKey], sampleCrypto.ValidKey key := by decide +kernel
  have hagree := keys_agree onSecp256k1_sample
  refine ⟨hagree, ?_, by decide +kernel⟩
  intro key hkey
  refine ⟨hvalid key hkey, hagree.same_address key _ () () ?_⟩
  exact Crypto.returns_verifyCmpPubkeyWithExpectedAddress.mpr ⟨⟨hvalid key hkey, rfl⟩, rfl⟩

end Story.Contracts
