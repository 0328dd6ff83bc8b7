/-
# Story.Numbers.Modular -- powers, primes and square roots modulo a number

Powers are computed by squaring, so that the kernel can evaluate them at the size of a
cryptographic modulus. With them Lucas's test shows a number prime, given the prime
factors of its predecessor. Modulo a prime that leaves 3 when divided by 4, one power
gives a square root of every number that has one, and a parity tells the two roots
apart.
-/
import Mathlib

namespace Story.Numbers

/-! ## Powers -/

/-- `b ^ e` modulo `m`, for exponents of at most `fuel` bits. -/
def powMod (m : Nat) : (fuel b e : Nat) → Nat
  | 0, _, _ => 1
  | fuel + 1, b, e =>
      let r := powMod m fuel (b * b % m) (e / 2)
      if e % 2 = 1 then r * b % m else r

theorem powMod_eq {m : Nat} (hm : 1 < m) {fuel e : Nat} (b : Nat) (he : e < 2 ^ fuel) :
    powMod m fuel b e = b ^ e % m := by
  induction fuel generalizing b e with
  | zero =>
      obtain rfl : e = 0 := by simpa using he
      rw [Nat.pow_zero, Nat.mod_eq_of_lt hm]
      rfl
  | succ fuel ih =>
      have hhalf : e / 2 < 2 ^ fuel := by
        rw [Nat.pow_succ] at he
        omega
      have hsquares : powMod m fuel (b * b % m) (e / 2) = b ^ (2 * (e / 2)) % m := by
        rw [ih _ hhalf, ← Nat.pow_mod, ← Nat.pow_two, ← Nat.pow_mul]
      show (if e % 2 = 1 then powMod m fuel (b * b % m) (e / 2) * b % m
        else powMod m fuel (b * b % m) (e / 2)) = b ^ e % m
      rw [hsquares]
      split
      next hodd =>
        have hexp : 2 * (e / 2) + 1 = e := by omega
        rw [Nat.mod_mul_mod, ← pow_succ, hexp]
      next heven =>
        have hexp : 2 * (e / 2) = e := by omega
        rw [hexp]

/-! ## Primes -/

theorem cast_pow_eq_one_iff {p : Nat} (hp : 1 < p) (a e : Nat) :
    (a : ZMod p) ^ e = 1 ↔ a ^ e % p = 1 := by
  have hone : 1 % p = 1 := Nat.mod_eq_of_lt hp
  rw [← Nat.cast_pow, ← Nat.cast_one, ZMod.natCast_eq_natCast_iff', hone]

/-- **Lucas's test**: the order of `a` is `p - 1`, of which all prime factors are given. -/
theorem prime_of_powMod {p : Nat} (fuel a : Nat) (factors : List Nat) (hp : 1 < p)
    (hfuel : p ≤ 2 ^ fuel) (hprime : factors.Forall Nat.Prime) (hprod : factors.prod = p - 1)
    (hone : powMod p fuel a (p - 1) = 1)
    (hne : ∀ q ∈ factors, powMod p fuel a ((p - 1) / q) ≠ 1) : p.Prime := by
  apply lucas_primality p (a : ZMod p)
  · have hlt : p - 1 < 2 ^ fuel := by omega
    rw [cast_pow_eq_one_iff hp, ← powMod_eq hp a hlt]
    exact hone
  · intro q hq hdvd
    rw [← hprod, Prime.dvd_prod_iff hq.prime] at hdvd
    obtain ⟨f, hf, hqf⟩ := hdvd
    obtain rfl := (Nat.prime_dvd_prime_iff_eq hq (List.forall_iff_forall_mem.mp hprime f hf)).mp hqf
    have hlt : (p - 1) / q < 2 ^ fuel := (Nat.div_le_self _ _).trans_lt (by omega)
    rw [Ne, cast_pow_eq_one_iff hp, ← powMod_eq hp a hlt]
    exact hne q hf

/-! ## Roots -/

section Roots

variable {p : Nat} [Fact p.Prime]

/-- A number with a cube root has a power that is one. -/
theorem pow_eq_one_of_cube {a x : ZMod p} (ha : a ≠ 0) (hdvd : 3 ∣ p - 1) (h : x ^ 3 = a) :
    a ^ ((p - 1) / 3) = 1 := by
  have hx : x ≠ 0 := by
    rintro rfl
    exact ha (h ▸ zero_pow (by decide))
  rw [← h, ← pow_mul, Nat.mul_div_cancel' hdvd]
  exact ZMod.pow_card_sub_one_eq_one hx

/-- **The root of a square**, for `p` that leaves 3 when divided by 4. -/
theorem sq_pow_of_sq {a y : ZMod p} (hp : p % 4 = 3) (h : y ^ 2 = a) :
    (a ^ ((p + 1) / 4)) ^ 2 = a := by
  rcases eq_or_ne y 0 with rfl | hy
  · have hexp : (p + 1) / 4 ≠ 0 := by omega
    rw [← h, zero_pow two_ne_zero, zero_pow hexp, zero_pow two_ne_zero]
  · have hexp : 2 * ((p + 1) / 4 * 2) = p - 1 + 2 := by omega
    rw [← h, ← pow_mul, ← pow_mul, hexp, pow_add, ZMod.pow_card_sub_one_eq_one hy, one_mul]

/-- Two roots of one number below `p` are the same or add up to `p`. -/
theorem eq_or_add_eq_of_sq_mod {y z : Nat} (hy : y < p) (hz : z < p) (hpos : 0 < y)
    (h : y ^ 2 % p = z ^ 2 % p) : y = z ∨ y + z = p := by
  have hsq : (y : ZMod p) ^ 2 = (z : ZMod p) ^ 2 := by
    rw [← Nat.cast_pow, ← Nat.cast_pow, ZMod.natCast_eq_natCast_iff']
    exact h
  rcases sq_eq_sq_iff_eq_or_eq_neg.mp hsq with heq | hneg
  · left
    rw [ZMod.natCast_eq_natCast_iff', Nat.mod_eq_of_lt hy, Nat.mod_eq_of_lt hz] at heq
    exact heq
  · right
    have hzero : ((y + z : Nat) : ZMod p) = 0 := by
      rw [Nat.cast_add, hneg, neg_add_cancel]
    -- the sum is a multiple of `p` between 0 and `2 * p`
    obtain ⟨k, hk⟩ := (ZMod.natCast_eq_zero_iff _ _).mp hzero
    obtain rfl : k = 1 := by
      rcases Nat.lt_trichotomy k 1 with hlt | heq | hgt
      · obtain rfl : k = 0 := by omega
        omega
      · exact heq
      · have : p * 2 ≤ p * k := Nat.mul_le_mul_left p hgt
        omega
    omega

/-- **A root with a parity is unique.** -/
theorem eq_of_sq_mod_of_parity {y z : Nat} (hodd : p % 2 = 1) (hy : y < p) (hz : z < p)
    (hpos : 0 < y) (h : y ^ 2 % p = z ^ 2 % p) (hparity : y % 2 = z % 2) : y = z := by
  rcases eq_or_add_eq_of_sq_mod hy hz hpos h with heq | hsum
  · exact heq
  · omega

end Roots

end Story.Numbers
