import Mathlib.Data.Nat.Log
import Mathlib.Tactic.Ring

/-! Numbers as groups of seven bits, the lowest one first. All bytes but the last have their
high bit set. -/

namespace Foundation

variable {n m k : Nat}

def leb (n : Nat) : List UInt8 :=
  if n < 128 then [.ofNat n] else .ofNat (n % 128 + 128) :: leb (n / 128)

/-- The `k` lowest groups, all with another one behind. -/
def groups : Nat → Nat → List UInt8
  | 0, _ => []
  | k + 1, n => .ofNat (n % 128 + 128) :: groups k (n / 128)

theorem leb_small (small : n < 128) : leb n = [.ofNat n] := by
  rw [leb, if_pos small]

theorem leb_large (large : 128 ≤ n) : leb n = .ofNat (n % 128 + 128) :: leb (n / 128) := by
  rw [leb, if_neg (by omega)]

theorem leb_eq_groups (low : 128 ^ k ≤ n) (high : n < 128 ^ (k + 1)) :
    leb n = groups k n ++ [.ofNat (n / 128 ^ k)] := by
  induction k generalizing n with
  | zero =>
      rw [leb_small (by simpa using high), Nat.pow_zero, Nat.div_one]
      rfl
  | succ k induction =>
      have large : 128 ≤ n := by
        have power : 0 < 128 ^ k := Nat.pow_pos (by decide)
        rw [Nat.pow_succ] at low
        omega
      have low' : 128 ^ k ≤ n / 128 := by
        rw [Nat.le_div_iff_mul_le (by decide), ← Nat.pow_succ]
        exact low
      have high' : n / 128 < 128 ^ (k + 1) := by
        rw [Nat.div_lt_iff_lt_mul (by decide), ← Nat.pow_succ]
        exact high
      rw [leb_large large, induction low' high', Nat.div_div_eq_div_mul, ← Nat.pow_succ']
      rfl

theorem length_groups (k n : Nat) : (groups k n).length = k := by
  induction k generalizing n with
  | zero => rfl
  | succ k induction => rw [groups, List.length_cons, induction]

/-- Only the bits of the groups matter. -/
theorem groups_congr (same : n % 128 ^ k = m % 128 ^ k) : groups k n = groups k m := by
  induction k generalizing n m with
  | zero => rfl
  | succ k induction =>
      have low : n % 128 = m % 128 := by
        have divides : 128 ∣ 128 ^ (k + 1) := Dvd.intro_left (128 ^ k) (Nat.pow_succ ..).symm
        rw [← Nat.mod_mod_of_dvd n divides, same, Nat.mod_mod_of_dvd m divides]
      have rest : n / 128 % 128 ^ k = m / 128 % 128 ^ k := by
        rw [Nat.pow_succ'] at same
        rw [← Nat.mod_mul_right_div_self, same, Nat.mod_mul_right_div_self]
      rw [groups, groups, low, induction rest]

/-- How many groups a number has. -/
theorem length_leb (some : n ≠ 0) : (leb n).length = n.log2 / 7 + 1 := by
  have low : 128 ^ (n.log2 / 7) ≤ n := by
    rw [show 128 = 2 ^ 7 from rfl, ← Nat.pow_mul]
    exact (Nat.pow_le_pow_right (by decide) (Nat.mul_div_le _ _)).trans (Nat.log2_self_le some)
  have high : n < 128 ^ (n.log2 / 7 + 1) := by
    rw [show 128 = 2 ^ 7 from rfl, ← Nat.pow_mul]
    exact Nat.lt_log2_self.trans_le (Nat.pow_le_pow_right (by decide) (by omega))
  rw [leb_eq_groups low high, List.length_append, length_groups, List.length_singleton]

end Foundation
