/-
# Story.Contracts.Secp256k1Verifier -- public keys, as the contracts check them

The contracts take compressed public keys. They are uncompressed with a library for
elliptic curves and checked to lie on the curve; where a key must belong to the caller,
its address is derived and compared. The library and the hash are parameters.
-/
import Story.Evm.Call
import Story.EvmEngine.Types
import Story.Numbers.Modular

namespace Story.Contracts

open Story.Effect Story.Eth Story.Evm
open Story.EvmEngine (ofBytesBE toBytesBE)
open Story.Numbers (powMod)

variable {σ : Type}

/-- The parameters of the curve. -/
def aa : Nat := 0
def bb : Nat := 7
def pp : Nat := 0xFFFFFFFFFFFFFFFFFFFFFFFFFFFFFFFFFFFFFFFFFFFFFFFFFFFFFFFEFFFFFC2F

/-- The functions of the `EllipticCurve` library that are used, and the hash. -/
structure Crypto where
  deriveY : (prefixByte : UInt8) → (x a b p : Nat) → Nat
  isOnCurve : (x y a b p : Nat) → Bool
  keccak256 : Bytes → Hash

namespace Crypto

variable (V : Crypto)

/-- `_uncompressPublicKey`. -/
def uncompressPublicKey (cmpPubkey : Bytes) : Tx σ Bytes := do
  require (cmpPubkey.length = 33) "Secp256k1Verifier: Invalid cmp pubkey length"
  let prefixByte := cmpPubkey.headD 0
  require (prefixByte = 0x02 ∨ prefixByte = 0x03) "Secp256k1Verifier: Invalid cmp pubkey prefix"
  let x := ofBytesBE cmpPubkey.tail
  let y := V.deriveY prefixByte x aa bb pp
  pure (0x04 :: (toBytesBE 32 x ++ toBytesBE 32 y))

/-- `_verifyUncmpPubkey`. -/
def verifyUncmpPubkey (uncmpPubkey : Bytes) : Tx σ Unit := do
  require (uncmpPubkey.length = 65) "Secp256k1Verifier: Invalid uncmp pubkey length"
  require (uncmpPubkey.headD 0 = 0x04) "Secp256k1Verifier: Invalid uncmp pubkey prefix"
  let x := ofBytesBE (uncmpPubkey.tail.take 32)
  let y := ofBytesBE (uncmpPubkey.tail.drop 32)
  require (V.isOnCurve x y aa bb pp) "Secp256k1Verifier: pubkey not on curve"

/-- `_uncmpPubkeyToAddress`: the last twenty bytes of the hash. -/
def uncmpPubkeyToAddress (uncmpPubkey : Bytes) : Address :=
  bytesToFixed 20 (bytesOf (V.keccak256 (uncmpPubkey.tail.take 64)))

/-- `_verifyCmpPubkey`, and the modifier `verifyCmpPubkey`. -/
def verifyCmpPubkey (cmpPubkey : Bytes) : Tx σ Unit := do
  let uncmpPubkey ← V.uncompressPublicKey cmpPubkey
  V.verifyUncmpPubkey uncmpPubkey

/-- The modifier `verifyCmpPubkeyWithExpectedAddress`. -/
def verifyCmpPubkeyWithExpectedAddress (cmpPubkey : Bytes) (expectedAddress : Address) :
    Tx σ Unit := do
  let uncmpPubkey ← V.uncompressPublicKey cmpPubkey
  V.verifyUncmpPubkey uncmpPubkey
  require (V.uncmpPubkeyToAddress uncmpPubkey = expectedAddress)
    "Secp256k1Verifier: Invalid pubkey derived address"

/-! ## What the checks ask for

They read nothing but their arguments. -/

instance readOnly_uncompressPublicKey (key : Bytes) :
    ReadOnly (V.uncompressPublicKey key : Tx σ Bytes) := by
  unfold uncompressPublicKey
  infer_instance

instance readOnly_verifyUncmpPubkey (key : Bytes) :
    ReadOnly (V.verifyUncmpPubkey key : Tx σ Unit) := by
  unfold verifyUncmpPubkey
  infer_instance

instance readOnly_verifyCmpPubkey (key : Bytes) :
    ReadOnly (V.verifyCmpPubkey key : Tx σ Unit) := by
  unfold verifyCmpPubkey
  infer_instance

instance readOnly_verifyCmpPubkeyWithExpectedAddress (key : Bytes) (expected : Address) :
    ReadOnly (V.verifyCmpPubkeyWithExpectedAddress key expected : Tx σ Unit) := by
  unfold verifyCmpPubkeyWithExpectedAddress
  infer_instance

/-- The uncompressed form of a key. -/
def uncompressed (key : Bytes) : Bytes :=
  let x := ofBytesBE key.tail
  0x04 :: (toBytesBE 32 x ++ toBytesBE 32 (V.deriveY (key.headD 0) x aa bb pp))

/-- A key that is accepted. -/
def ValidKey (key : Bytes) : Prop :=
  key.length = 33 ∧ (key.headD 0 = 0x02 ∨ key.headD 0 = 0x03) ∧
    V.isOnCurve (ofBytesBE ((V.uncompressed key).tail.take 32))
      (ofBytesBE ((V.uncompressed key).tail.drop 32)) aa bb pp = true

instance (key : Bytes) : Decidable (V.ValidKey key) := inferInstanceAs (Decidable (_ ∧ _))

/-- The address of the holder of a key. -/
def holder (key : Bytes) : Address := V.uncmpPubkeyToAddress (V.uncompressed key)

variable {V}

theorem returns_uncompressPublicKey {key u : Bytes} {s t : σ} :
    Returns (V.uncompressPublicKey key) s u t ↔
      (key.length = 33 ∧ (key.headD 0 = 0x02 ∨ key.headD 0 = 0x03)) ∧
        V.uncompressed key = u ∧ s = t := by
  simp only [uncompressPublicKey, returns_bind, returns_require, returns_pure]
  constructor
  · rintro ⟨_, _, ⟨hlen, rfl⟩, _, _, ⟨hbyte, rfl⟩, hu, rfl⟩
    exact ⟨⟨hlen, hbyte⟩, hu, rfl⟩
  · rintro ⟨⟨hlen, hbyte⟩, hu, rfl⟩
    exact ⟨(), s, ⟨hlen, rfl⟩, (), s, ⟨hbyte, rfl⟩, hu, rfl⟩

theorem returns_verifyUncmpPubkey {key : Bytes} {u : Unit} {s t : σ} :
    Returns (V.verifyUncmpPubkey (V.uncompressed key)) s u t ↔
      V.isOnCurve (ofBytesBE ((V.uncompressed key).tail.take 32))
        (ofBytesBE ((V.uncompressed key).tail.drop 32)) aa bb pp = true ∧ s = t := by
  have hlen : (V.uncompressed key).length = 65 := by simp [uncompressed]
  have hbyte : (V.uncompressed key).headD 0 = 0x04 := rfl
  simp only [verifyUncmpPubkey, returns_bind, returns_require, hlen, hbyte, true_and]
  constructor
  · rintro ⟨_, _, rfl, _, _, rfl, h⟩
    exact h
  · intro h
    exact ⟨(), s, rfl, (), s, rfl, h⟩

@[simp] theorem returns_verifyCmpPubkey {key : Bytes} {u : Unit} {s t : σ} :
    Returns (V.verifyCmpPubkey key) s u t ↔ V.ValidKey key ∧ s = t := by
  simp only [verifyCmpPubkey, returns_bind, returns_uncompressPublicKey]
  constructor
  · rintro ⟨_, _, ⟨hshape, rfl, rfl⟩, h⟩
    obtain ⟨hcurve, rfl⟩ := returns_verifyUncmpPubkey.mp h
    exact ⟨⟨hshape.1, hshape.2, hcurve⟩, rfl⟩
  · rintro ⟨⟨hlen, hbyte, hcurve⟩, rfl⟩
    exact ⟨_, s, ⟨⟨hlen, hbyte⟩, rfl, rfl⟩, returns_verifyUncmpPubkey.mpr ⟨hcurve, rfl⟩⟩

@[simp] theorem returns_verifyCmpPubkeyWithExpectedAddress {key : Bytes} {expected : Address}
    {u : Unit} {s t : σ} :
    Returns (V.verifyCmpPubkeyWithExpectedAddress key expected) s u t ↔
      (V.ValidKey key ∧ V.holder key = expected) ∧ s = t := by
  simp only [verifyCmpPubkeyWithExpectedAddress, returns_bind, returns_uncompressPublicKey,
    returns_require]
  constructor
  · rintro ⟨_, _, ⟨hshape, rfl, rfl⟩, _, _, h, hholder, rfl⟩
    obtain ⟨hcurve, rfl⟩ := returns_verifyUncmpPubkey.mp h
    exact ⟨⟨⟨hshape.1, hshape.2, hcurve⟩, hholder⟩, rfl⟩
  · rintro ⟨⟨⟨hlen, hbyte, hcurve⟩, hholder⟩, rfl⟩
    exact ⟨_, s, ⟨⟨hlen, hbyte⟩, rfl, rfl⟩, (), s,
      returns_verifyUncmpPubkey.mpr ⟨hcurve, rfl⟩, hholder, rfl⟩

end Crypto

/-! ## An instance

The arithmetic of the library on the curve, with a hash that keeps the last bytes. -/

def sampleCrypto : Crypto where
  deriveY := fun prefixByte x a b p =>
    let y := powMod p 256 ((x * x * x + a * x + b) % p) ((p + 1) / 4)
    if (y + prefixByte.toNat) % 2 = 0 then y else p - y
  isOnCurve := fun x y a b p =>
    0 < x && x < p && 0 < y && y < p && (y * y % p == (x * x * x + a * x + b) % p)
  keccak256 := fun b => bytesToHash b

/-- The two keys with the first coordinate of the generator. -/
def evenKey : Bytes :=
  0x02 :: toBytesBE 32 0x79BE667EF9DCBBAC55A06295CE870B07029BFCDB2DCE28D959F2815B16F81798

def oddKey : Bytes := 0x03 :: evenKey.tail

end Story.Contracts
