import Mathlib.Data.BitVec

/-! Lua numbers as IEEE double bit patterns, for the single-number build
(`LJ_DUALNUM` is 0). Only the conversions the compiler itself applies are
computed here; arithmetic is the parameter `Vm.foldarith`. -/

namespace TvmJit

/-- A `lua_Number`, as the 64 bits of its double. -/
abbrev Num := BitVec 64

namespace Num

/-- `tviszero`: both zeros. -/
def isZero (n : Num) : Bool := n <<< 1 == 0

/-- `tvismzero`: the zero with the sign bit set. -/
def isMzero (n : Num) : Bool := n == 0x8000000000000000

def expBits (n : Num) : Nat := n.toNat / 2 ^ 52 % 2 ^ 11

def mantBits (n : Num) : Nat := n.toNat % 2 ^ 52

/-- `tvisnan`: every exponent bit set and a fraction that is not zero. -/
def isNan (n : Num) : Bool := n.expBits == 2047 && n.mantBits != 0

/-- The C comparison `a == b` of two doubles. -/
def eq (a b : Num) : Bool :=
  !a.isNan && !b.isNan && (a == b || (a.isZero && b.isZero))

/-- Flipping the sign bit, as `o->u64 ^= U64x(80000000,00000000)`. -/
def flipSign (n : Num) : Num := n ^^^ 0x8000000000000000

/-- The double of an integer of at most 53 bits, `(lua_Number)k`. -/
def ofInt (k : Int) : Num :=
  let m := k.natAbs
  if m = 0 then 0
  else
    let e := m.log2
    let bits := (1023 + e) * 2 ^ 52 + (m * 2 ^ 52 / 2 ^ e - 2 ^ 52)
    BitVec.ofNat 64 (if k < 0 then 2 ^ 63 + bits else bits)

/-- The magnitude of a double with its fraction cut off. -/
def truncAbs (n : Num) : Nat :=
  let m := 2 ^ 52 + n.mantBits
  if n.expBits < 1023 then 0
  else if n.expBits < 1075 then m / 2 ^ (1075 - n.expBits)
  else m * 2 ^ (n.expBits - 1075)

/-- `lj_num2int`, the conversion `(int32_t)n`. Where the truncated value does
not fit, the x86 conversion instruction answers the most negative integer. -/
def num2int (n : Num) : Int :=
  let k : Int := if n.msb then -(n.truncAbs : Int) else n.truncAbs
  if n.expBits = 2047 then -2147483648
  else if -2147483648 ≤ k ∧ k < 2147483648 then k
  else -2147483648

example : ofInt (-3) = 0xC008000000000000 := by decide

example : num2int 0xC008CCCCCCCCCCCD = -3 := by decide

@[simp] theorem eq_self_of_not_nan {n : Num} (notNan : n.isNan = false) : n.eq n = true := by
  simp [eq, notNan]

theorem isZero_iff {n : Num} : n.isZero = true ↔ n = 0 ∨ n = 0x8000000000000000 := by
  unfold isZero
  rw [beq_iff_eq]
  constructor
  · intro shifted
    have low : n.toNat * 2 % 2 ^ 64 = 0 := by
      have := congrArg BitVec.toNat shifted
      simpa [Nat.shiftLeft_eq] using this
    have bound := n.isLt
    rcases Nat.lt_or_ge n.toNat (2 ^ 63) with small | large
    · exact Or.inl (BitVec.eq_of_toNat_eq (by simp; omega))
    · exact Or.inr (BitVec.eq_of_toNat_eq (by simp; omega))
  · rintro (rfl | rfl) <;> rfl

/-- Two doubles that compare equal have the same bits, or are the two zeros. -/
theorem eq_true_iff {a b : Num} : a.eq b = true ↔
    a.isNan = false ∧ b.isNan = false ∧ (a = b ∨ (a.isZero = true ∧ b.isZero = true)) := by
  simp [eq, and_assoc]

@[simp] theorem ofInt_zero : ofInt 0 = 0 := rfl

theorem num2int_range (n : Num) : -2147483648 ≤ n.num2int ∧ n.num2int < 2147483648 := by
  unfold num2int
  dsimp only
  split
  · decide
  · split <;> omega

/-- The fields of the double of an integer that is not zero. -/
theorem fields_ofInt {k : Int} (notZero : k ≠ 0) (small : k.natAbs < 2 ^ 53) :
    (ofInt k).expBits = 1023 + k.natAbs.log2 ∧
      (ofInt k).mantBits = k.natAbs * 2 ^ (52 - k.natAbs.log2) - 2 ^ 52 ∧
      2 ^ 52 ≤ k.natAbs * 2 ^ (52 - k.natAbs.log2) ∧
      (ofInt k).msb = decide (k < 0) := by
  have positive : k.natAbs ≠ 0 := Int.natAbs_ne_zero.mpr notZero
  have low : 2 ^ k.natAbs.log2 ≤ k.natAbs := Nat.log2_self_le positive
  have high : k.natAbs < 2 ^ (k.natAbs.log2 + 1) := Nat.lt_log2_self
  have short : k.natAbs.log2 < 53 := (Nat.log2_lt positive).mpr small
  generalize hm : k.natAbs = m at *
  generalize he : m.log2 = e at *
  have power : 2 ^ 52 = 2 ^ (52 - e) * 2 ^ e := by
    rw [← Nat.pow_add]
    congr 1
    omega
  have shifted : m * 2 ^ 52 / 2 ^ e = m * 2 ^ (52 - e) := by
    rw [power, ← Nat.mul_assoc]
    exact Nat.mul_div_cancel _ (Nat.two_pow_pos e)
  have lower : 2 ^ 52 ≤ m * 2 ^ (52 - e) := by
    rw [power, Nat.mul_comm]
    exact Nat.mul_le_mul_right _ low
  have upper : m * 2 ^ (52 - e) < 2 ^ 53 := by
    have double : 2 ^ 53 = 2 ^ (e + 1) * 2 ^ (52 - e) := by
      rw [← Nat.pow_add]
      congr 1
      omega
    rw [double]
    exact Nat.mul_lt_mul_of_pos_right high (Nat.two_pow_pos _)
  have value : (ofInt k).toNat =
      (if k < 0 then 2 ^ 63 else 0) + (1023 + e) * 2 ^ 52 + (m * 2 ^ (52 - e) - 2 ^ 52) := by
    unfold ofInt
    dsimp only
    rw [hm, if_neg positive, he, shifted, BitVec.toNat_ofNat, Nat.mod_eq_of_lt]
    · split <;> omega
    · split <;> omega
  refine ⟨?_, ?_, lower, ?_⟩
  · rw [expBits, value]
    split <;> omega
  · rw [mantBits, value]
    split <;> omega
  · rw [BitVec.msb_eq_decide, value, decide_eq_decide]
    split <;> omega

theorem num2int_ofInt {k : Int} (low : -2147483648 ≤ k) (high : k < 2147483648) :
    (ofInt k).num2int = k := by
  by_cases zero : k = 0
  · rw [zero]
    decide
  have small : k.natAbs < 2 ^ 53 := by omega
  have short : k.natAbs.log2 < 53 := (Nat.log2_lt (Int.natAbs_ne_zero.mpr zero)).mpr small
  obtain ⟨exp, mant, lower, sign⟩ := fields_ofInt zero small
  have magnitude : (ofInt k).truncAbs = k.natAbs := by
    unfold truncAbs
    dsimp only
    have exponent : 1075 - (1023 + k.natAbs.log2) = 52 - k.natAbs.log2 := by omega
    rw [exp, mant, if_neg (by omega), Nat.add_sub_cancel' lower, exponent]
    split
    · exact Nat.mul_div_cancel _ (Nat.two_pow_pos _)
    · have wide : 52 - k.natAbs.log2 = 0 := by omega
      have narrow : 1023 + k.natAbs.log2 - 1075 = 0 := by omega
      rw [wide, narrow, pow_zero, mul_one, mul_one]
  unfold num2int
  dsimp only
  rw [exp, sign, magnitude, if_neg (by omega)]
  simp only [decide_eq_true_eq]
  split <;> omega

theorem finite_ofInt {k : Int} (small : k.natAbs < 2 ^ 53) : (ofInt k).expBits ≠ 2047 := by
  by_cases zero : k = 0
  · rw [zero]
    decide
  have short : k.natAbs.log2 < 53 := (Nat.log2_lt (Int.natAbs_ne_zero.mpr zero)).mpr small
  have exp := (fields_ofInt zero small).1
  omega

theorem isNan_ofInt {k : Int} (small : k.natAbs < 2 ^ 53) : (ofInt k).isNan = false := by
  simp [isNan, finite_ofInt small]

end Num

/-- `checki16`. -/
def checki16 (k : Int) : Bool := -32768 ≤ k && k < 32768

/-- `checku8`. -/
def checku8 (k : Int) : Bool := 0 ≤ k && k < 256

/-- The arithmetic operators, in the order `lj_vm_foldarith` numbers them. -/
inductive ArithOp
  | add | sub | mul | div | mod | pow
  deriving DecidableEq, Repr

/-- What the compiler takes from the machine it compiles for:
`lj_vm_foldarith`, the arithmetic the interpreter applies to two numbers. -/
class Vm where
  foldarith : ArithOp → Num → Num → Num

end TvmJit
