import Mathlib.Data.BitVec
import Mathlib.Data.Nat.Log

/-! Offsets padded to powers of two, in the natural numbers and with masks of machine words. -/

namespace Foundation

/-- The least multiple of `2 ^ k` from `n` on. -/
def padTo (k n : Nat) : Nat := (n + (2 ^ k - 1)) / 2 ^ k * 2 ^ k

/-- The greatest multiple of `2 ^ k` up to `n`. -/
def cutTo (k n : Nat) : Nat := n / 2 ^ k * 2 ^ k

theorem dvd_padTo (k n : Nat) : 2 ^ k ∣ padTo k n := Nat.dvd_mul_left _ _

theorem dvd_cutTo (k n : Nat) : 2 ^ k ∣ cutTo k n := Nat.dvd_mul_left _ _

theorem le_padTo (k n : Nat) : n ≤ padTo k n := by
  have positive := Nat.two_pow_pos k
  have whole := Nat.div_add_mod (n + (2 ^ k - 1)) (2 ^ k)
  have rest := Nat.mod_lt (n + (2 ^ k - 1)) positive
  rw [padTo, Nat.mul_comm]
  omega

theorem cutTo_add_mod (k n : Nat) : cutTo k n + n % 2 ^ k = n := by
  rw [cutTo, Nat.mul_comm]
  exact Nat.div_add_mod n (2 ^ k)

theorem cutTo_le (k n : Nat) : cutTo k n ≤ n := Nat.div_mul_le_self _ _

theorem padTo_of_dvd {k n : Nat} (whole : 2 ^ k ∣ n) : padTo k n = n := by
  obtain ⟨m, rfl⟩ := whole
  have positive := Nat.two_pow_pos k
  rw [padTo, Nat.mul_add_div positive, Nat.div_eq_of_lt (by omega), Nat.add_zero, Nat.mul_comm]

theorem padTo_le {k n m : Nat} (below : n ≤ m) (whole : 2 ^ k ∣ m) : padTo k n ≤ m := by
  rw [← padTo_of_dvd whole]
  exact Nat.mul_le_mul_right _ (Nat.div_le_div_right (Nat.add_le_add_right below _))

/-- A cut at a finer unit keeps a coarser one. -/
theorem cutTo_of_mod_lt {j k n : Nat} (finer : j ≤ k) (near : n % 2 ^ k < 2 ^ j) :
    cutTo j n = cutTo k n := by
  have power : 2 ^ k = 2 ^ j * 2 ^ (k - j) := by
    rw [← Nat.pow_add, Nat.add_sub_cancel' finer]
  have small : n % 2 ^ j = n % 2 ^ k := by
    rw [← Nat.mod_mod_of_dvd n (Dvd.intro _ power.symm)]
    exact Nat.mod_eq_of_lt near
  have cuts := cutTo_add_mod j n
  have cuts' := cutTo_add_mod k n
  omega

/-- Padding does not see multiples of a coarser unit. -/
theorem padTo_mod {k w : Nat} (finer : k ≤ w) (n : Nat) :
    padTo k (n % 2 ^ w) % 2 ^ w = padTo k n % 2 ^ w := by
  have power : 2 ^ w = 2 ^ k * 2 ^ (w - k) := by
    rw [← Nat.pow_add, Nat.add_sub_cancel' finer]
  have shifted : padTo k n = padTo k (n % 2 ^ w) + 2 ^ w * (n / 2 ^ w) := by
    have split := Nat.mod_add_div n (2 ^ w)
    calc padTo k n = padTo k (n % 2 ^ w + 2 ^ k * (2 ^ (w - k) * (n / 2 ^ w))) := by
          rw [← Nat.mul_assoc, ← power, split]
      _ = padTo k (n % 2 ^ w) + 2 ^ w * (n / 2 ^ w) := by
          rw [padTo, padTo, Nat.add_right_comm, Nat.add_mul_div_left _ _ (Nat.two_pow_pos k),
            Nat.add_mul, Nat.mul_comm (2 ^ (w - k) * (n / 2 ^ w)), ← Nat.mul_assoc, ← power]
  rw [shifted, Nat.add_mul_mod_self_left]

/-! ## Masks -/

section

variable {w k : Nat}

theorem toNat_mask (fits : k < w) : (BitVec.ofNat w (2 ^ k) - 1#w).toNat = 2 ^ k - 1 := by
  have power := Nat.pow_lt_pow_right Nat.one_lt_two fits
  have one : 1 ≤ 2 ^ k := Nat.one_le_two_pow
  have isOne : (1#w).toNat = 1 := by
    rw [BitVec.toNat_ofNat]
    exact Nat.mod_eq_of_lt (one.trans_lt power)
  have isPower : (BitVec.ofNat w (2 ^ k)).toNat = 2 ^ k := by
    rw [BitVec.toNat_ofNat]
    exact Nat.mod_eq_of_lt power
  rw [BitVec.toNat_sub_of_le, isOne, isPower]
  rw [BitVec.le_def, isOne, isPower]
  exact one

theorem toNat_and_mask (x : BitVec w) (fits : k < w) :
    (x &&& (BitVec.ofNat w (2 ^ k) - 1#w)).toNat = x.toNat % 2 ^ k := by
  rw [BitVec.toNat_and, toNat_mask fits, Nat.and_two_pow_sub_one_eq_mod]

theorem toNat_and_not_mask (x : BitVec w) (fits : k < w) :
    (x &&& ~~~(BitVec.ofNat w (2 ^ k) - 1#w)).toNat = cutTo k x.toNat := by
  let mask := BitVec.ofNat w (2 ^ k) - 1#w
  have disjoint : (x &&& ~~~mask) &&& (x &&& mask) = 0#w := by
    ext i below
    simp only [BitVec.getElem_and, BitVec.getElem_not, BitVec.getElem_zero]
    cases x[i] <;> simp
  have whole : (x &&& ~~~mask) ||| (x &&& mask) = x := by
    ext i below
    simp only [BitVec.getElem_or, BitVec.getElem_and, BitVec.getElem_not]
    cases x[i] <;> simp
  have sum := congrArg BitVec.toNat (BitVec.add_eq_or_of_and_eq_zero _ _ disjoint)
  rw [whole, BitVec.toNat_add_of_and_eq_zero disjoint, toNat_and_mask x fits] at sum
  have cuts := cutTo_add_mod k x.toNat
  change (x &&& ~~~mask).toNat = _
  omega

/-- Padding with a mask, unless it wraps around. -/
theorem toNat_pad_mask (x : BitVec w) (fits : k < w) (room : padTo k x.toNat < 2 ^ w) :
    (x + (BitVec.ofNat w (2 ^ k) - 1#w) &&& ~~~(BitVec.ofNat w (2 ^ k) - 1#w)).toNat =
      padTo k x.toNat := by
  have power : 2 ^ w = 2 ^ k * 2 ^ (w - k) := by
    rw [← Nat.pow_add, Nat.add_sub_cancel' fits.le]
  have sum : (x + (BitVec.ofNat w (2 ^ k) - 1#w)).toNat = x.toNat + (2 ^ k - 1) := by
    rw [BitVec.toNat_add, toNat_mask fits, Nat.mod_eq_of_lt]
    rw [padTo, power, Nat.mul_comm] at room
    rw [power, Nat.mul_comm]
    exact Nat.lt_mul_of_div_lt (Nat.lt_of_mul_lt_mul_left room) (Nat.two_pow_pos k)
  rw [toNat_and_not_mask _ fits, sum]
  rfl

/-- Padding that wraps around ends at zero. -/
theorem pad_mask_wrapped (x : BitVec w) (fits : k < w) (wraps : 2 ^ w ≤ padTo k x.toNat) :
    x + (BitVec.ofNat w (2 ^ k) - 1#w) &&& ~~~(BitVec.ofNat w (2 ^ k) - 1#w) = 0#w := by
  have power : 2 ^ w = 2 ^ k * 2 ^ (w - k) := by
    rw [← Nat.pow_add, Nat.add_sub_cancel' fits.le]
  have large : 2 ^ w ≤ x.toNat + (2 ^ k - 1) := by
    rw [padTo, power, Nat.mul_comm] at wraps
    have quotient := Nat.le_of_mul_le_mul_right wraps (Nat.two_pow_pos k)
    have least := (Nat.le_div_iff_mul_le (Nat.two_pow_pos k)).mp quotient
    rwa [power, Nat.mul_comm]
  have below := x.isLt
  have finer : 2 ^ k ≤ 2 ^ w := Nat.pow_le_pow_right (by decide) fits.le
  apply BitVec.eq_of_toNat_eq
  rw [toNat_and_not_mask _ fits, BitVec.toNat_add, toNat_mask fits, Nat.mod_eq_sub_mod large,
    Nat.mod_eq_of_lt (by omega), cutTo, Nat.div_eq_of_lt (by omega), Nat.zero_mul]
  rfl

end

end Foundation
