import Mathlib.Tactic.Linarith
import TvmJit.Ir.Arithmetic
import TvmJit.Scan.Doubles

/-! Double arithmetic on integers: sums, differences and products that are exact, the modulo operator, and powers by
repeated multiplication. -/

namespace TvmJit.Arith

open Foundation

/-! ## Words of integers -/

section

variable {i j : Int} {zero : Bool}

theorem wide : binary64.prec < binary64.emax := by decide

theorem whole_lt (zero : Bool) (i : Int) : binary64.whole zero i < 2 ^ 64 :=
  binary64.encode_lt ((binary64.magnitude_le _ _).trans_lt binary64.infinity_lt)

/-- A word that is no negative zero is that of the integer. -/
theorem ofNat_whole (small : i.natAbs < 2 ^ 53) (plain : i = 0 → zero = false) :
    BitVec.ofNat 64 (binary64.whole zero i) = Num.ofInt i := by
  by_cases isZero : i = 0
  · rw [plain isZero, isZero]
    rfl
  · have word := Scan.word_small (signOf zero i) (Int.natAbs_ne_zero.mpr isZero) small
    have same : Scan.signed (signOf zero i) i.natAbs = i := signed_natAbs zero i
    rw [same] at word
    exact word

theorem toNat_ofInt (small : i.natAbs < 2 ^ 53) : (Num.ofInt i).toNat = binary64.whole false i := by
  rw [← ofNat_whole small fun _ => rfl, BitVec.toNat_ofNat, Nat.mod_eq_of_lt (whole_lt _ _)]

theorem addsd_ofInt (small : i.natAbs < 2 ^ 53) (small' : j.natAbs < 2 ^ 53) (sum : (i + j).natAbs < 2 ^ 53) :
    addsd (Num.ofInt i) (Num.ofInt j) = Num.ofInt (i + j) := by
  rw [addsd, toNat_ofInt small, toNat_ofInt small', binary64.add_whole wide small small']
  apply ofNat_whole sum
  intro isZero
  by_cases none : i = 0
  · rw [none]
    rfl
  · have some : j ≠ 0 := by omega
    rw [signOf_of_ne none, signOf_of_ne some, ← Bool.decide_and, decide_eq_false_iff_not]
    omega

theorem subsd_ofInt (small : i.natAbs < 2 ^ 53) (small' : j.natAbs < 2 ^ 53) (difference : (i - j).natAbs < 2 ^ 53) :
    subsd (Num.ofInt i) (Num.ofInt j) = Num.ofInt (i - j) := by
  rw [subsd, toNat_ofInt small, toNat_ofInt small', binary64.sub_whole wide small small']
  apply ofNat_whole difference
  intro isZero
  by_cases none : i = 0
  · rw [none]
    rfl
  · have some : j ≠ 0 := by omega
    have same : i = j := by omega
    rw [same, Bool.and_not_self]

theorem mulsd_ofInt (small : i.natAbs < 2 ^ 53) (small' : j.natAbs < 2 ^ 53) (product : (i * j).natAbs < 2 ^ 53)
    (plain : i * j = 0 → i = 0 ∧ j = 0) : mulsd (Num.ofInt i) (Num.ofInt j) = Num.ofInt (i * j) := by
  rw [mulsd, toNat_ofInt small, toNat_ofInt small', binary64.mul_whole wide small small']
  apply ofNat_whole product
  intro isZero
  have ⟨left, right⟩ := plain isZero
  rw [left, right]
  rfl

/-- The sign bit of an integer. -/
theorem flipSign_ofInt (small : i.natAbs < 2 ^ 53) (nonzero : i ≠ 0) : (Num.ofInt i).flipSign = Num.ofInt (-i) := by
  have word (negative : Bool) := Scan.word_small negative (Int.natAbs_ne_zero.mpr nonzero) small
  have flipped := Scan.flipSign_word i.natAbs
  rw [word false, word true] at flipped
  rcases lt_or_gt_of_ne nonzero with low | high
  · have down : Scan.signed true i.natAbs = i := by
      rw [Scan.signed, if_pos rfl]
      omega
    have up : Scan.signed false i.natAbs = -i := by
      rw [Scan.signed, if_neg Bool.false_ne_true]
      omega
    rw [down, up] at flipped
    rw [← flipped, Num.flipSign, Num.flipSign, BitVec.xor_assoc, BitVec.xor_self, BitVec.xor_zero]
  · have up : Scan.signed false i.natAbs = i := by
      rw [Scan.signed, if_neg Bool.false_ne_true]
      omega
    have down : Scan.signed true i.natAbs = -i := by
      rw [Scan.signed, if_pos rfl]
      omega
    rwa [down, up] at flipped

theorem natAbs_fmod_lt (i : Int) (nonzero : j ≠ 0) : (i.fmod j).natAbs < j.natAbs := by
  rcases lt_or_gt_of_ne nonzero with low | high
  · have lower := Int.fmod_nonneg_of_pos (-i) (Int.neg_pos_of_neg low)
    have upper := Int.fmod_lt_of_pos (-i) (Int.neg_pos_of_neg low)
    rw [Int.neg_fmod_neg] at lower upper
    omega
  · have lower := Int.fmod_nonneg_of_pos i high
    have upper := Int.fmod_lt_of_pos i high
    omega

/-- The modulo operator of integers that are not too large. -/
theorem mod_ofInt (short : i.natAbs ≤ 2 ^ 31) (short' : j.natAbs ≤ 2 ^ 31) (nonzero : j ≠ 0) :
    subsd (Num.ofInt i) (mulsd (lj_vm_floor (divsd (Num.ofInt i) (Num.ofInt j))) (Num.ofInt j)) =
      Num.ofInt (i.fmod j) := by
  have small : i.natAbs < 2 ^ 53 := by omega
  have small' : j.natAbs < 2 ^ 53 := by omega
  have exact_ : i.fmod j = i - i.fdiv j * j := by
    rw [Int.fmod_def, Int.mul_comm]
  have rest := natAbs_fmod_lt i nonzero
  have product : (i.fdiv j * j).natAbs < 2 ^ 53 := by omega
  have quotient : (i.fdiv j).natAbs < 2 ^ 53 := by
    rw [Int.natAbs_mul] at product
    exact (Nat.le_mul_of_pos_right _ (Int.natAbs_pos.mpr nonzero)).trans_lt product
  have divided : (divsd (Num.ofInt i) (Num.ofInt j)).toNat = binary64.div (binary64.whole false i) (binary64.whole false j) := by
    rw [divsd, BitVec.toNat_ofNat, toNat_ofInt small, toNat_ofInt small']
    exact Nat.mod_eq_of_lt (binary64.div_lt _ _)
  rw [subsd, mulsd, lj_vm_floor, divided, binary64.floor_div_whole wide (short.trans (by decide)) small' nonzero,
    BitVec.toNat_ofNat, BitVec.toNat_ofNat, Nat.mod_eq_of_lt (whole_lt _ _), toNat_ofInt small, toNat_ofInt small',
    binary64.mul_whole wide quotient small', Nat.mod_eq_of_lt (whole_lt _ _), binary64.sub_whole wide small product, exact_]
  apply ofNat_whole
  · omega
  · intro isZero
    by_cases left : i = 0
    · rw [left]
      rfl
    · have same : i.fdiv j * j = i := by omega
      rw [same, signOf_of_ne left, signOf_of_ne left, Bool.and_not_self]

end

/-! ## Modulo of machine integers -/

/-- A remainder with the sign of the divisor. -/
theorem fmod_eq {i j q r : Int} (division : i = r + j * q) (remainder : 0 ≤ r ∧ r < j ∨ j < r ∧ r ≤ 0) : i.fmod j = r := by
  rw [division, Int.add_mul_fmod_self_left]
  rcases remainder with ⟨low, high⟩ | ⟨low, high⟩
  · exact Int.fmod_eq_of_lt low high
  · have negated : (-r).fmod (-j) = -r := Int.fmod_eq_of_lt (by omega) (by omega)
    rw [Int.neg_fmod_neg] at negated
    omega

theorem slt_zero (a : BitVec 32) : a.slt 0 = decide (a.toInt < 0) := BitVec.slt_zero_eq_msb.trans BitVec.msb_eq_toInt

/-- The magnitude of a machine integer, which is unsigned. -/
theorem toNat_magnitude (a : BitVec 32) : (if a.slt 0 then -a else a).toNat = a.toInt.natAbs := by
  have value := BitVec.toInt_eq_toNat_cond a
  have small := a.isLt
  rw [slt_zero]
  split_ifs with low
  · rw [decide_eq_true_eq] at low
    rw [BitVec.toNat_neg]
    split_ifs at value <;> omega
  · rw [decide_eq_true_eq] at low
    split_ifs at value <;> omega

/-- The result gets the sign of the divisor. -/
theorem toInt_adjusted {y b : BitVec 32} (notMin : -2 ^ 31 < y.toInt) : (if (y ^^^ b).slt 0 then -y else y).toInt =
    if (y.toInt < 0 ↔ b.toInt < 0) then y.toInt else -y.toInt := by
  have negated : (-y).toInt = -y.toInt := by
    apply BitVec.toInt_neg_of_ne_intMin
    intro isMin
    rw [isMin] at notMin
    exact absurd notMin (by decide)
  have signs : (y ^^^ b).slt 0 = (decide (y.toInt < 0) ^^ decide (b.toInt < 0)) := by
    have msb : (y ^^^ b).slt 0 = (y ^^^ b).msb := BitVec.slt_zero_eq_msb
    rw [msb, BitVec.msb_xor, BitVec.msb_eq_toInt, BitVec.msb_eq_toInt]
  rw [signs]
  by_cases low : y.toInt < 0 <;> by_cases low' : b.toInt < 0 <;> simp [low, low', negated]

/-- The remainder of the magnitudes, moved into the range of the result. -/
theorem toInt_moved (a : BitVec 32) {b : BitVec 32} (nonzero : b.toInt ≠ 0) :
    (movedRemainder a b).toInt = if a.toInt.natAbs % b.toInt.natAbs ≠ 0 ∧ ¬(a.toInt < 0 ↔ b.toInt < 0) then
        ((a.toInt.natAbs % b.toInt.natAbs : Nat) : Int) - b.toInt.natAbs
      else (a.toInt.natAbs % b.toInt.natAbs : Nat) := by
  have signs : (a ^^^ b).slt 0 = (decide (a.toInt < 0) ^^ decide (b.toInt < 0)) := by
    have msb : (a ^^^ b).slt 0 = (a ^^^ b).msb := BitVec.slt_zero_eq_msb
    rw [msb, BitVec.msb_xor, BitVec.msb_eq_toInt, BitVec.msb_eq_toInt]
  have ub := toNat_magnitude b
  have y : ((if a.slt 0 then -a else a) % (if b.slt 0 then -b else b)).toNat = a.toInt.natAbs % b.toInt.natAbs := by
    rw [BitVec.toNat_umod, toNat_magnitude, toNat_magnitude]
  have remainder := Nat.mod_lt a.toInt.natAbs (Int.natAbs_pos.mpr nonzero)
  have few : b.toInt.natAbs ≤ 2 ^ 31 := by
    have lower := BitVec.le_toInt b
    have upper := BitVec.toInt_lt (x := b)
    omega
  rw [movedRemainder]
  generalize (if a.slt 0 then -a else a) % (if b.slt 0 then -b else b) = y' at *
  generalize (if b.slt 0 then -b else b) = ub' at *
  have isZero : y' ≠ 0 ↔ a.toInt.natAbs % b.toInt.natAbs ≠ 0 := by
    rw [← y]
    exact not_congr ⟨fun zero => zero ▸ rfl, fun zero => BitVec.eq_of_toNat_eq zero⟩
  have differ : (a ^^^ b).slt 0 = true ↔ ¬(a.toInt < 0 ↔ b.toInt < 0) := by
    rw [signs]
    by_cases low : a.toInt < 0 <;> by_cases low' : b.toInt < 0 <;> simp [low, low']
  by_cases moved : a.toInt.natAbs % b.toInt.natAbs ≠ 0 ∧ ¬(a.toInt < 0 ↔ b.toInt < 0)
  · rw [if_pos moved, if_pos ⟨isZero.mpr moved.1, differ.mpr moved.2⟩, BitVec.toInt_eq_toNat_cond, BitVec.toNat_sub, y, ub]
    split_ifs <;> omega
  · rw [if_neg moved, if_neg fun both => moved ⟨isZero.mp both.1, differ.mp both.2⟩, BitVec.toInt_eq_toNat_cond, y]
    split_ifs <;> omega

theorem toInt_lj_vm_modi (a : BitVec 32) {b : BitVec 32} (nonzero : b.toInt ≠ 0) :
    (lj_vm_modi a b).toInt = a.toInt.fmod b.toInt := by
  have division := Nat.div_add_mod a.toInt.natAbs b.toInt.natAbs
  have remainder := Nat.mod_lt a.toInt.natAbs (Int.natAbs_pos.mpr nonzero)
  have few : b.toInt.natAbs ≤ 2 ^ 31 := by
    have lower := BitVec.le_toInt b
    have upper := BitVec.toInt_lt (x := b)
    omega
  have moved := toInt_moved a nonzero
  have notMin : -2 ^ 31 < (movedRemainder a b).toInt := by
    rw [moved]
    split_ifs <;> omega
  rw [lj_vm_modi, toInt_adjusted notMin, moved]
  generalize a.toInt.natAbs % b.toInt.natAbs = r at *
  generalize a.toInt.natAbs / b.toInt.natAbs = k at *
  generalize a.toInt = i at *
  generalize b.toInt = j at *
  have whole : (i.natAbs : Int) = j.natAbs * k + r := by
    rw [← division]
    push_cast
    rfl
  symm
  rcases lt_or_gt_of_ne nonzero with low | high
  · have abs : (j.natAbs : Int) = -j := by omega
    rw [abs] at whole ⊢
    rcases lt_or_ge i 0 with low' | high'
    · have abs' : (i.natAbs : Int) = -i := by omega
      have kept : ¬(r ≠ 0 ∧ ¬(i < 0 ↔ j < 0)) := by omega
      rw [if_neg kept, if_neg (by omega)]
      exact fmod_eq (q := k) (by linarith) (by omega)
    · have abs' : (i.natAbs : Int) = i := by omega
      by_cases isZero : r = 0
      · have kept : ¬(r ≠ 0 ∧ ¬(i < 0 ↔ j < 0)) := by omega
        rw [if_neg kept, if_neg (by omega)]
        exact fmod_eq (q := -k) (by linarith) (by omega)
      · have shifted : r ≠ 0 ∧ ¬(i < 0 ↔ j < 0) := by omega
        rw [if_pos shifted, if_pos (by omega)]
        exact fmod_eq (q := -k - 1) (by linarith) (by omega)
  · have abs : (j.natAbs : Int) = j := by omega
    rw [abs] at whole ⊢
    rcases lt_or_ge i 0 with low' | high'
    · have abs' : (i.natAbs : Int) = -i := by omega
      by_cases isZero : r = 0
      · have kept : ¬(r ≠ 0 ∧ ¬(i < 0 ↔ j < 0)) := by omega
        rw [if_neg kept, if_pos (by omega)]
        exact fmod_eq (q := -k) (by linarith) (by omega)
      · have shifted : r ≠ 0 ∧ ¬(i < 0 ↔ j < 0) := by omega
        rw [if_pos shifted, if_neg (by omega)]
        exact fmod_eq (q := -k - 1) (by linarith) (by omega)
    · have abs' : (i.natAbs : Int) = i := by omega
      have kept : ¬(r ≠ 0 ∧ ¬(i < 0 ↔ j < 0)) := by omega
      rw [if_neg kept, if_pos (by omega)]
      exact fmod_eq (q := k) (by linarith) (by omega)

/-! ## Powers -/

section

variable {b : Int} {p q k : Nat}

/-- A power that is not too large has no greater factors. -/
theorem pow_small (small : (b ^ q).natAbs < 2 ^ 53) (positive : p ≠ 0) (least : p ≤ q) : (b ^ p).natAbs < 2 ^ 53 := by
  rw [Int.natAbs_pow] at small ⊢
  rcases Nat.eq_zero_or_pos b.natAbs with none | some
  · rw [none, Nat.zero_pow (Nat.pos_of_ne_zero positive)]
    decide
  · exact (Nat.pow_le_pow_right some least).trans_lt small

theorem mulsd_pow (small : (b ^ (p + q)).natAbs < 2 ^ 53) (positive : p ≠ 0) (positive' : q ≠ 0) :
    mulsd (Num.ofInt (b ^ p)) (Num.ofInt (b ^ q)) = Num.ofInt (b ^ (p + q)) := by
  rw [Int.pow_add] at small ⊢
  apply mulsd_ofInt
  · rw [← Int.pow_add] at small
    exact pow_small small positive (Nat.le_add_right p q)
  · rw [← Int.pow_add] at small
    exact pow_small small positive' (Nat.le_add_left q p)
  · exact small
  · intro isZero
    rw [← Int.pow_add] at isZero
    have base : b = 0 := pow_eq_zero_iff (by omega) |>.mp isZero
    rw [base]
    exact ⟨zero_pow positive, zero_pow positive'⟩

theorem powui_ofInt {c : BitVec 32} (some : c.toNat ≠ 0) (small : (b ^ c.toNat).natAbs < 2 ^ 53) :
    lj_vm_powui (Num.ofInt b) c = Num.ofInt (b ^ c.toNat) := by
  have power := powerBySquares_eq mulsd (fun p => Num.ofInt (b ^ p)) (fun p q positive positive' within =>
    mulsd_pow (pow_small small (by omega) within) positive positive') (Nat.le_refl _) some c.isLt
  rwa [Int.pow_one] at power

/-- A power of integers that is not too large is exact. -/
theorem powi_ofInt {c : BitVec 32} (natural : 0 ≤ c.toInt) (small : (b ^ c.toInt.toNat).natAbs < 2 ^ 53) :
    lj_vm_powi (Num.ofInt b) c = Num.ofInt (b ^ c.toInt.toNat) := by
  have exponent : c.toInt.toNat = c.toNat := by
    have value := BitVec.toInt_eq_toNat_cond c
    have bound := c.isLt
    split_ifs at value <;> omega
  rw [exponent] at small ⊢
  rw [lj_vm_powi]
  split_ifs with more isOne isZero
  · rw [powui_ofInt (by omega) small]
  · rw [isOne]
    exact congrArg Num.ofInt (Int.pow_one b).symm
  · rw [isZero]
    exact congrArg Num.ofInt (Int.pow_zero b).symm
  · have value : c.toInt ≠ 0 ∧ c.toInt ≠ 1 := by
      constructor
      · intro same
        exact isZero (BitVec.eq_of_toInt_eq same)
      · intro same
        exact isOne (BitVec.eq_of_toInt_eq same)
    omega

end

end TvmJit.Arith
