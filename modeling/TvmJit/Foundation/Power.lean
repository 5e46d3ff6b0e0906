import Mathlib.Tactic.Ring

/-! Powers by repeated squaring. -/

namespace Foundation

section

variable {α : Type} (mul : α → α → α)

/-- Handle leading zeros: the exponent, which is not zero, is halved while it is even and the base squared. -/
def leadingZeros : Nat → α → Nat → α × Nat
  | 0, x, k => (x, k)
  | steps + 1, x, k => if k % 2 = 0 then leadingZeros steps (mul x x) (k / 2) else (x, k)

/-- Handle trailing bits: each selects a square that is multiplied to `y`. -/
def trailingBits : Nat → α → α → Nat → α
  | 0, x, y, _ => mul y x
  | steps + 1, x, y, k =>
      let x := mul x x
      if k = 1 then mul y x
      else trailingBits steps x (if k % 2 = 1 then mul y x else y) (k / 2)

/-- `x` to the power of `k`, which is not zero and has no more than `steps` bits. -/
def powerBySquares (steps : Nat) (x : α) (k : Nat) : α :=
  let (x, k) := leadingZeros mul steps x k
  if k / 2 ≠ 0 then trailingBits mul steps x x (k / 2) else x

end

section

variable {α : Type} {mul : α → α → α} {power : Nat → α} {limit p q k steps : Nat}
  (mul_power : ∀ p q, p ≠ 0 → q ≠ 0 → p + q ≤ limit → mul (power p) (power q) = power (p + q))
include mul_power

theorem leadingZeros_power (within : p * k ≤ limit) (positive : p ≠ 0) (some : k ≠ 0) (short : k < 2 ^ steps) :
    ∃ p' k', leadingZeros mul steps (power p) k = (power p', k') ∧ p' * k' = p * k ∧ p' ≠ 0 ∧ k' % 2 = 1 := by
  induction steps generalizing p k with
  | zero => exact absurd (Nat.lt_one_iff.mp short) some
  | succ steps ih =>
      rw [leadingZeros]
      split_ifs with even
      · have product : (p + p) * (k / 2) = p * k := by
          rw [← Nat.two_mul, Nat.mul_assoc, Nat.mul_left_comm]
          congr 1
          omega
        have square : p + p ≤ limit := by
          apply Nat.le_trans _ within
          rw [← product]
          exact Nat.le_mul_of_pos_right _ (by omega)
        rw [Nat.pow_succ] at short
        have ⟨p', k', eq, same, rest⟩ := ih (p := p + p) (k := k / 2) (by rwa [product]) (by omega) (by omega) (by omega)
        rw [mul_power p p positive positive square]
        exact ⟨p', k', eq, same.trans product, rest⟩
      · exact ⟨p, k, rfl, rfl, positive, by omega⟩

theorem trailingBits_power (within : q + 2 * p * k ≤ limit) (positive : p ≠ 0) (positive' : q ≠ 0) (some : k ≠ 0)
    (short : k < 2 ^ steps) : trailingBits mul steps (power p) (power q) k = power (q + 2 * p * k) := by
  induction steps generalizing p q k with
  | zero => exact absurd (Nat.lt_one_iff.mp short) some
  | succ steps ih =>
      have least : p + p ≤ 2 * p * k := by
        rw [← Nat.two_mul]
        exact Nat.le_mul_of_pos_right _ (Nat.pos_of_ne_zero some)
      rw [Nat.pow_succ] at short
      rw [trailingBits, mul_power p p positive positive (by omega), mul_power q (p + p) positive' (by omega) (by omega)]
      split_ifs with last odd
      · rw [last, Nat.mul_one, Nat.two_mul]
      · have exponent : q + (p + p) + 2 * (p + p) * (k / 2) = q + 2 * p * k := by
          have twice : k = 2 * (k / 2) + 1 := by omega
          generalize k / 2 = h at twice
          rw [twice]
          ring
        rw [← exponent] at within ⊢
        exact ih within (by omega) (by omega) (by omega) (by omega)
      · have exponent : q + 2 * (p + p) * (k / 2) = q + 2 * p * k := by
          have twice : k = 2 * (k / 2) := by omega
          generalize k / 2 = h at twice
          rw [twice]
          ring
        rw [← exponent] at within ⊢
        exact ih within (by omega) positive' (by omega) (by omega)

variable (mul power) in
/-- Where exponents add up to the limit, the power is that with the exponent. -/
theorem powerBySquares_eq (within : k ≤ limit) (some : k ≠ 0) (short : k < 2 ^ steps) :
    powerBySquares mul steps (power 1) k = power k := by
  have ⟨p, odd, leading, product, positive, isOdd⟩ := leadingZeros_power mul_power (p := 1) (by rwa [Nat.one_mul])
    Nat.one_ne_zero some short
  rw [powerBySquares, leading]
  rw [Nat.one_mul] at product
  have twice : odd = 2 * (odd / 2) + 1 := by omega
  have bounded : odd ≤ k := by
    rw [← product]
    exact Nat.le_mul_of_pos_left _ (Nat.pos_of_ne_zero positive)
  dsimp only
  split_ifs with more
  · have exponent : p + 2 * p * (odd / 2) = k := by
      rw [← product]
      generalize odd / 2 = h at twice
      rw [twice]
      ring
    rw [trailingBits_power mul_power (by rwa [exponent]) positive positive more (by omega), exponent]
  · have single : odd = 1 := by omega
    rw [← product, single, Nat.mul_one]

end

end Foundation
