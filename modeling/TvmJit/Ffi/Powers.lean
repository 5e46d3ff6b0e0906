import TvmJit.Ir.Integers

/-! The powers of `lj_carith.c`, and the modulo operator when it is folded. -/

namespace TvmJit.Carith

open Foundation Arith

/-! ## 64 bit integer powers -/

/-- Unsigned 64 bit x^k. -/
def lj_carith_powu64 (x k : BitVec 64) : BitVec 64 :=
  if k = 0 then 1 else powerBySquares (· * ·) 64 x k.toNat

/-- Signed 64 bit x^k. -/
def lj_carith_powi64 (x k : BitVec 64) : BitVec 64 :=
  if k = 0 then 1
  else if k.slt 0 then
    if x = 0 then 0x7fffffffffffffff
    else if x = 1 then 1
    else if x = -1 then if k &&& 1 ≠ 0 then -1 else 1
    else 0
  else lj_carith_powu64 x k

/-- The power of a word is that of any integer it stands for. -/
theorem powu64_ofInt (i : Int) (k : BitVec 64) : lj_carith_powu64 (BitVec.ofInt 64 i) k = BitVec.ofInt 64 (i ^ k.toNat) := by
  rw [lj_carith_powu64]
  split_ifs with isZero
  · rw [isZero]
    exact congrArg (BitVec.ofInt 64) (Int.pow_zero i).symm
  · have some : k.toNat ≠ 0 := fun same => isZero (BitVec.eq_of_toNat_eq same)
    have power := powerBySquares_eq (fun x y : BitVec 64 => x * y) (fun p => BitVec.ofInt 64 (i ^ p))
      (fun p q _ _ _ => by rw [Int.pow_add, BitVec.ofInt_mul]) (Nat.le_refl _) some k.isLt
    rwa [Int.pow_one] at power

theorem toNat_powu64 (x k : BitVec 64) : (lj_carith_powu64 x k).toNat = x.toNat ^ k.toNat % 2 ^ 64 := by
  have power := powu64_ofInt x.toNat k
  rw [BitVec.ofInt_natCast, BitVec.ofNat_toNat, BitVec.setWidth_eq, ← Int.natCast_pow, BitVec.ofInt_natCast] at power
  rw [power, BitVec.toNat_ofNat]

theorem powi64_natural (x : BitVec 64) {k : BitVec 64} (natural : 0 ≤ k.toInt) :
    lj_carith_powi64 x k = BitVec.ofInt 64 (x.toInt ^ k.toInt.toNat) := by
  have exponent : k.toInt.toNat = k.toNat := by
    have value := BitVec.toInt_eq_toNat_cond k
    have bound := k.isLt
    split_ifs at value <;> omega
  have sign : k.slt 0 = false := decide_eq_false (Int.not_lt.mpr natural)
  rw [lj_carith_powi64, sign, if_neg Bool.false_ne_true]
  split_ifs with isZero
  · rw [isZero]
    exact congrArg (BitVec.ofInt 64) (Int.pow_zero x.toInt).symm
  · have power := powu64_ofInt x.toInt k
    rwa [BitVec.ofInt_toInt, ← exponent] at power

/-- One by a number of greater magnitude. -/
theorem one_tdiv_of_lt {i : Int} (large : 1 < i.natAbs) : Int.tdiv 1 i = 0 := by
  rw [← Int.natAbs_eq_zero, Int.natAbs_tdiv]
  exact Nat.div_eq_of_lt large

/-- The lowest bit of a word is that of its negation. -/
theorem and_one_ne_zero (k : BitVec 64) (negative : k.toInt < 0) : k &&& 1 ≠ 0 ↔ Odd (-k.toInt).toNat := by
  have bit : (k &&& 1).toNat = k.toNat % 2 := by
    rw [BitVec.toNat_and]
    exact Nat.and_one_is_mod _
  have value := BitVec.toInt_eq_toNat_cond k
  have small := k.isLt
  have isZero : k &&& 1 = 0 ↔ k.toNat % 2 = 0 := by
    rw [← bit]
    exact ⟨fun same => congrArg BitVec.toNat same, fun same => BitVec.eq_of_toNat_eq same⟩
  rw [Ne, isZero, Nat.odd_iff]
  split_ifs at value <;> omega

/-- A power with a negative exponent is the truncated quotient. -/
theorem powi64_negative {x k : BitVec 64} (some : x ≠ 0) (negative : k.toInt < 0) :
    (lj_carith_powi64 x k).toInt = Int.tdiv 1 (x.toInt ^ (-k.toInt).toNat) := by
  have sign : k.slt 0 = true := decide_eq_true negative
  have notZero : k ≠ 0 := by
    intro isZero
    rw [isZero] at negative
    exact absurd negative (by decide)
  have different (i : Int) (other : x ≠ BitVec.ofInt 64 i) : x.toInt ≠ i := by
    intro same
    rw [← same, BitVec.ofInt_toInt] at other
    exact other rfl
  rw [lj_carith_powi64, if_neg notZero, if_pos sign, if_neg some]
  split_ifs with isOne isMinusOne odd
  · have value : x.toInt = 1 := congrArg BitVec.toInt isOne
    rw [value, one_pow]
    rfl
  · have value : x.toInt = -1 := congrArg BitVec.toInt isMinusOne
    rw [value, ((and_one_ne_zero k negative).mp odd).neg_one_pow]
    rfl
  · have value : x.toInt = -1 := congrArg BitVec.toInt isMinusOne
    have even := Nat.not_odd_iff_even.mp (mt (and_one_ne_zero k negative).mpr odd)
    rw [value, even.neg_one_pow]
    rfl
  · have none : x.toInt ≠ 0 := different 0 some
    have one : x.toInt ≠ 1 := different 1 isOne
    have minusOne : x.toInt ≠ -1 := different (-1) isMinusOne
    have large : 1 < x.toInt.natAbs := by omega
    rw [one_tdiv_of_lt]
    · rfl
    · rw [Int.natAbs_pow]
      exact Nat.one_lt_pow (by omega) large

/-! ## Modulo -/

/-- The operands of an instruction that are constants. -/
structure Constants where
  left : Option (BitVec 32)
  right : Option (BitVec 32)

inductive Folded
  /-- The constant `k`. -/
  | kint (k : BitVec 32)
  /-- The bits of the left operand that are in `k`. -/
  | band (k : BitVec 32)
  /-- The instruction stays. -/
  | next

/-- `kfold_intop`, `simplify_intmod_k` and `simplify_intmod_kleft` for MOD. -/
def foldMod (fins : Constants) : Folded :=
  match fins.left, fins.right with
  | some k1, some k2 => .kint (lj_vm_modi k1 k2)
  | none, some k => if (0 : BitVec 32).slt k = true ∧ k &&& (k - 1) = 0 then .band (k - 1) else .next
  | some k, none => if k = 0 then .kint 0 else .next
  | none, none => .next

/-- The value that is left, for the values of the operands. -/
def Folded.value (a b : BitVec 32) : Folded → BitVec 32
  | .kint k => k
  | .band k => a &&& k
  | .next => lj_vm_modi a b

/-- The low bits are the remainder by a power of two. -/
theorem modi_eq_and (a : BitVec 32) {k : BitVec 32} (positive : 0 < k.toInt) (power : k &&& (k - 1) = 0) :
    lj_vm_modi a k = a &&& (k - 1) := by
  have value := BitVec.toInt_eq_toNat_cond k
  have few := BitVec.toInt_lt (x := k)
  have same : k.toInt = k.toNat := by
    have bound := k.isLt
    split_ifs at value <;> omega
  have pred : (k - 1).toNat = k.toNat - 1 := by
    have one : (1 : BitVec 32).toNat = 1 := rfl
    rw [BitVec.toNat_sub_of_le]
    · rw [one]
    · rw [BitVec.le_def, one]
      omega
  have disjoint : k.toNat &&& (k.toNat - 1) = 0 := by
    rw [← pred, ← BitVec.toNat_and, power]
    rfl
  have ⟨n, isPower⟩ := Nat.ne_zero_and_sub_one_eq_zero_iff_isPowerOfTwo.mp ⟨by omega, disjoint⟩
  have bits : (a &&& (k - 1)).toNat = a.toNat % 2 ^ n := by
    rw [BitVec.toNat_and, pred, isPower, Nat.and_two_pow_sub_one_eq_mod]
  have short : n < 31 := by
    apply (Nat.pow_lt_pow_iff_right Nat.one_lt_two).mp
    omega
  have whole : 2 ^ 32 = 2 ^ n * 2 ^ (32 - n) := by
    rw [← Nat.pow_add]
    congr 1
    omega
  have below := Nat.mod_lt a.toNat (Nat.two_pow_pos n)
  have division := Nat.div_add_mod a.toNat (2 ^ n)
  have atop : (a &&& (k - 1)).toInt = (a.toNat % 2 ^ n : Nat) := by
    rw [BitVec.toInt_eq_toNat_cond, bits, if_pos (by omega)]
  apply BitVec.eq_of_toInt_eq
  rw [toInt_lj_vm_modi a (by omega), atop, same, isPower]
  by_cases negative : 2 * a.toNat < 2 ^ 32
  · have value' : a.toInt = a.toNat := by rw [BitVec.toInt_eq_toNat_cond, if_pos negative]
    apply fmod_eq (q := (a.toNat / 2 ^ n : Nat)) _ (.inl ⟨by omega, by omega⟩)
    rw [value']
    omega
  · have value' : a.toInt = a.toNat - (2 ^ 32 : Nat) := by rw [BitVec.toInt_eq_toNat_cond, if_neg negative]
    apply fmod_eq (q := (a.toNat / 2 ^ n : Nat) - (2 ^ (32 - n) : Nat)) _ (.inl ⟨by omega, by omega⟩)
    rw [value', whole, Int.mul_sub, ← Int.natCast_mul, ← Int.natCast_mul]
    omega

theorem modi_zero {b : BitVec 32} (nonzero : b ≠ 0) : lj_vm_modi 0 b = 0 := by
  have some : b.toInt ≠ 0 := fun same => nonzero (BitVec.eq_of_toInt_eq same)
  apply BitVec.eq_of_toInt_eq
  rw [toInt_lj_vm_modi 0 some]
  exact Int.zero_fmod _

/-- Folded and executed, the modulo operator is the same. -/
theorem value_foldMod {fins : Constants} {a b : BitVec 32} (left : ∀ k, fins.left = some k → a = k)
    (right : ∀ k, fins.right = some k → b = k) (nonzero : b ≠ 0) : (foldMod fins).value a b = lj_vm_modi a b := by
  rw [foldMod]
  cases isLeft : fins.left with
  | none =>
      cases isRight : fins.right with
      | none => rfl
      | some k =>
          dsimp only
          rw [right k isRight]
          split_ifs with power
          · exact (modi_eq_and a (of_decide_eq_true power.1) power.2).symm
          · rfl
  | some k =>
      rw [left k isLeft]
      cases isRight : fins.right with
      | none =>
          dsimp only
          split_ifs with isZero
          · rw [isZero]
            exact (modi_zero nonzero).symm
          · rfl
      | some k' =>
          rw [right k' isRight]
          rfl

theorem powi64_base_zero {k : BitVec 64} (negative : k.toInt < 0) : (lj_carith_powi64 0 k).toInt = 2 ^ 63 - 1 := by
  have sign : k.slt 0 = true := decide_eq_true negative
  have notZero : k ≠ 0 := by
    intro isZero
    rw [isZero] at negative
    exact absurd negative (by decide)
  rw [lj_carith_powi64, if_neg notZero, if_pos sign, if_pos rfl]
  rfl

/-- The sign of a remainder is that of the divisor. -/
theorem fmod_sign (i : Int) {j : Int} (nonzero : j ≠ 0) : i.fmod j = 0 ∨ (i.fmod j < 0 ↔ j < 0) := by
  rcases lt_or_gt_of_ne nonzero with low | high
  · have remainder := Int.fmod_nonneg_of_pos (-i) (Int.neg_pos_of_neg low)
    rw [Int.neg_fmod_neg] at remainder
    omega
  · have remainder := Int.fmod_nonneg_of_pos i high
    omega

/-- Powers of words, and remainders of machine integers. -/
theorem powers_and_remainders :
    (∀ x k : BitVec 64, (lj_carith_powu64 x k).toNat = x.toNat ^ k.toNat % 2 ^ 64) ∧
    (∀ x k : BitVec 64, 0 ≤ k.toInt → lj_carith_powi64 x k = BitVec.ofInt 64 (x.toInt ^ k.toInt.toNat)) ∧
    (∀ x k : BitVec 64, k.toInt < 0 → (lj_carith_powi64 x k).toInt =
      if x = 0 then 2 ^ 63 - 1 else Int.tdiv 1 (x.toInt ^ (-k.toInt).toNat)) ∧
    (∀ a b : BitVec 32, b ≠ 0 →
      (lj_vm_modi a b).toInt = a.toInt.fmod b.toInt ∧
      (lj_vm_modi a b).toInt = a.toInt - b.toInt * a.toInt.fdiv b.toInt ∧
      ((lj_vm_modi a b).toInt = 0 ∨ ((lj_vm_modi a b).toInt < 0 ↔ b.toInt < 0))) ∧
    ∀ (fins : Constants) (a b : BitVec 32), (∀ k, fins.left = some k → a = k) → (∀ k, fins.right = some k → b = k) →
      b ≠ 0 → (foldMod fins).value a b = lj_vm_modi a b := by
  refine ⟨toNat_powu64, fun x k natural => powi64_natural x natural, ?_, ?_, ?_⟩
  · intro x k negative
    split_ifs with isZero
    · rw [isZero]
      exact powi64_base_zero negative
    · exact powi64_negative isZero negative
  · intro a b nonzero
    have some : b.toInt ≠ 0 := fun same => nonzero (BitVec.eq_of_toInt_eq same)
    rw [toInt_lj_vm_modi a some]
    exact ⟨rfl, Int.fmod_def _ _, fmod_sign _ some⟩
  · intro fins a b left right nonzero
    exact value_foldMod left right nonzero

/-- The least integer and a divisor of the other sign. -/
theorem remainder_of_least : (lj_vm_modi 0x80000000 7).toInt = (0x80000000 : BitVec 32).toInt.fmod (7 : BitVec 32).toInt :=
  (powers_and_remainders.2.2.2.1 0x80000000 7 (by decide)).1

end TvmJit.Carith
