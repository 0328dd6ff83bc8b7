/-
# Story.Numbers.Decimal -- rounding a quotient half to even

A decimal with a fixed number of digits is a number of its smallest units. A quotient is
rounded to the nearest number of units, and a tie goes to the even one; the units that do
not make up a whole are then cut off. Rounding first matters exactly when the exact
quotient lies at most half a unit below a whole number.
-/
import Mathlib

namespace Story.Numbers

/-- The number nearest to `n / d`; a tie goes to the even one. -/
def roundHalfEven (n d : Nat) : Nat :=
  if 2 * (n % d) < d then n / d
  else if d < 2 * (n % d) then n / d + 1
  else if n / d % 2 = 0 then n / d
  else n / d + 1

/-- Rounding goes down, or up by at most one half. -/
theorem roundHalfEven_eq (n d : Nat) :
    roundHalfEven n d = n / d ∨ roundHalfEven n d = n / d + 1 ∧ d ≤ 2 * (n % d) := by
  unfold roundHalfEven
  split
  · exact .inl rfl
  · split
    · exact .inr ⟨rfl, by omega⟩
    · split
      · exact .inl rfl
      · exact .inr ⟨rfl, by omega⟩

/-- **Cutting off after rounding** is cutting off, unless the quotient is within half a unit
below a whole number of `k` units. -/
theorem roundHalfEven_div {n d k : Nat} (hd : 0 < d) (hk : 0 < k)
    (h : 2 * (n % (d * k)) + d < 2 * (d * k)) : roundHalfEven n d / k = n / (d * k) := by
  rcases roundHalfEven_eq n d with hdown | ⟨hup, hhalf⟩
  · rw [hdown, Nat.div_div_eq_div_mul]
  · rw [hup, Nat.succ_div, ← Nat.div_div_eq_div_mul, if_neg, Nat.add_zero]
    rintro ⟨c, hc⟩
    -- the quotient would lie less than `d` below `c` wholes, and by `hhalf` at most half of that
    obtain ⟨e, rfl⟩ : ∃ e, c = e + 1 := by
      refine Nat.exists_eq_succ_of_ne_zero ?_
      rintro rfl
      exact absurd hc (Nat.succ_ne_zero _)
    have hn : n = d * k * e + (d * k - d + n % d) := by
      have hdivision := Nat.div_add_mod n d
      have hquotient : n / d = k * e + (k - 1) := by
        rw [Nat.mul_add, Nat.mul_one] at hc
        omega
      have hlast : d * (k - 1) = d * k - d := by rw [Nat.mul_sub, Nat.mul_one]
      rw [hquotient, Nat.mul_add, hlast, ← Nat.mul_assoc] at hdivision
      omega
    have hle : d ≤ d * k := Nat.le_mul_of_pos_right d hk
    have hlt := Nat.mod_lt n hd
    have hmod : n % (d * k) = d * k - d + n % d := by
      conv_lhs => rw [hn]
      rw [Nat.mul_add_mod, Nat.mod_eq_of_lt (by omega)]
    omega

/-- **Rounding reaches the next whole number** from half a unit below it on. A whole has an even
number of units, so the last unit before it is odd and a tie goes up. -/
theorem roundHalfEven_div_succ {n d k : Nat} (hk : 0 < k) (heven : k % 2 = 0)
    (hd : 0 < d) (h : 2 * (d * k) ≤ 2 * (n % (d * k)) + d) :
    roundHalfEven n d / k = n / (d * k) + 1 := by
  obtain ⟨e, rfl⟩ : ∃ e, k = e + 1 := Nat.exists_eq_succ_of_ne_zero hk.ne'
  have hlt : n % (d * (e + 1)) < d * (e + 1) := Nat.mod_lt n (Nat.mul_pos hd hk)
  have hwhole : d * (e + 1) = d * e + d := Nat.mul_succ d e
  -- the part above the last whole number is `e` units and at least half of one
  have hunits : n % (d * (e + 1)) / d = e := by
    apply Nat.div_eq_of_lt_le
    · rw [Nat.mul_comm]
      omega
    · rw [Nat.mul_comm (e + 1) d]
      exact hlt
  have hhalf : d ≤ 2 * (n % d) := by
    have hdivision := Nat.div_add_mod (n % (d * (e + 1))) d
    rw [hunits, Nat.mod_mul_right_mod] at hdivision
    omega
  have hquotient : n / d = (e + 1) * (n / (d * (e + 1))) + e := by
    have hdivision := Nat.div_add_mod (n / d) (e + 1)
    rw [Nat.div_div_eq_div_mul, ← Nat.mod_mul_right_div_self, hunits] at hdivision
    exact hdivision.symm
  have hodd : n / d % 2 = 1 := by
    rw [hquotient, Nat.add_mod, Nat.mul_mod, heven]
    omega
  have hup : roundHalfEven n d = n / d + 1 := by
    unfold roundHalfEven
    rw [if_neg (by omega), hodd]
    split <;> rfl
  rw [hup, hquotient, Nat.add_assoc, ← Nat.mul_succ, Nat.mul_div_cancel_left _ hk]

end Story.Numbers
