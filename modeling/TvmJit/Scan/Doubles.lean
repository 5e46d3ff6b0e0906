import TvmJit.Scan.Scan

/-! The doubles that integers are converted to: exact ones below 2^53, and others that are no
32 bit integer. -/

namespace TvmJit.Scan

open Foundation

/-- The integer of a magnitude and a sign. -/
def signed (neg : Bool) (v : Nat) : Int := if neg then -(v : Int) else v

/-- What a double says of the integer that it was converted from. -/
def IsDouble (neg : Bool) (v : Nat) (n : Num) : Prop :=
  v < 2 ^ 53 ∧ (n = Num.ofInt (signed neg v) ∨ v = 0 ∧ n.isZero = true) ∨ 1076 ≤ n.expBits

theorem natAbs_signed (neg : Bool) (v : Nat) : (signed neg v).natAbs = v := by
  cases neg
  · exact Int.natAbs_natCast v
  · exact (Int.natAbs_neg _).trans (Int.natAbs_natCast v)

/-! ## Words of doubles -/

section

variable {m : Nat} {e : Int}

/-- A word that is far from 0 has a large exponent. -/
theorem magnitude_large (nonzero : m ≠ 0) (large : 53 ≤ m.log2 + e) :
    1076 * 2 ^ 52 ≤ binary64.magnitude m e := by
  have unit : binary64.unit = 2 ^ 52 := rfl
  have prec : binary64.prec = 53 := rfl
  have emin : binary64.emin = -1074 := by decide
  have infinity : binary64.infinity = 2047 * 2 ^ 52 := rfl
  have shift : (m.log2 + 1 - binary64.prec : Int) ≤ binary64.shift m e := Int.le_max_left ..
  have ⟨_, normal⟩ := binary64.significand_bounds nonzero e
  rw [Format.magnitude, if_neg nonzero, infinity, emin, unit]
  rw [unit, emin] at normal
  rw [prec] at shift
  have exponent : 1075 ≤ (e + binary64.shift m e - -1074).toNat := by omega
  have full : 2 ^ 52 ≤ binary64.significand m e := by
    apply normal.resolve_right
    omega
  apply Nat.le_min.mpr
  constructor
  · decide
  · calc 1076 * 2 ^ 52 = 1075 * 2 ^ 52 + 2 ^ 52 := rfl
      _ ≤ (e + binary64.shift m e - -1074).toNat * 2 ^ 52 + binary64.significand m e :=
          Nat.add_le_add (Nat.mul_le_mul_right _ exponent) full

theorem magnitude_lt (m : Nat) (e : Int) : binary64.magnitude m e < 2 ^ 63 := by
  have least := binary64.magnitude_le m e
  have infinity : binary64.infinity < 2 ^ 63 := by decide
  omega

/-- A word with its sign. -/
def word (neg : Bool) (m : Nat) (e : Int) : Num := .ofNat 64 (binary64.encode neg (binary64.magnitude m e))

theorem toNat_word (neg : Bool) (m : Nat) (e : Int) :
    (word neg m e).toNat = (if neg then 2 ^ 63 else 0) + binary64.magnitude m e := by
  have small := magnitude_lt m e
  have signBit : binary64.signBit = 2 ^ 63 := rfl
  rw [word, BitVec.toNat_ofNat, Format.encode, signBit, Nat.mod_eq_of_lt]
  split <;> omega

theorem expBits_word (neg : Bool) (m : Nat) (e : Int) : (word neg m e).expBits = binary64.magnitude m e / 2 ^ 52 := by
  have small := magnitude_lt m e
  rw [Num.expBits, toNat_word]
  split <;> omega

theorem word_large (neg : Bool) (nonzero : m ≠ 0) (large : 53 ≤ m.log2 + e) : 1076 ≤ (word neg m e).expBits := by
  have least := magnitude_large nonzero large
  rw [expBits_word]
  omega

/-- Integers of at most 53 bits are exact. -/
theorem word_small (neg : Bool) (nonzero : m ≠ 0) (small : m < 2 ^ 53) :
    word neg m 0 = Num.ofInt (signed neg m) := by
  have length : m.log2 < 53 := (Nat.log2_lt nonzero).mpr small
  have below : m < 2 ^ (m.log2 + 1) := Nat.lt_log2_self
  have above : 2 ^ m.log2 ≤ m := Nat.log2_self_le nonzero
  have unit : binary64.unit = 2 ^ 52 := rfl
  have prec : binary64.prec = 53 := rfl
  have emin : binary64.emin = -1074 := by decide
  have infinity : binary64.infinity = 2047 * 2 ^ 52 := rfl
  have shift : binary64.shift m 0 = m.log2 - 52 := by
    rw [Format.shift, prec, emin]
    omega
  have up : (-(m.log2 - 52 : Int)).toNat = 52 - m.log2 := by omega
  have none : (m.log2 - 52 : Int).toNat = 0 := by omega
  have exponent : (0 + (m.log2 - 52 : Int) - -1074).toNat = 1022 + m.log2 := by omega
  have power : 2 ^ 52 = 2 ^ (52 - m.log2) * 2 ^ m.log2 := by
    rw [← Nat.pow_add]
    congr 1
    omega
  have shifted : m * 2 ^ 52 / 2 ^ m.log2 = m * 2 ^ (52 - m.log2) := by
    rw [power, ← Nat.mul_assoc]
    exact Nat.mul_div_cancel _ (Nat.two_pow_pos _)
  have lower : 2 ^ 52 ≤ m * 2 ^ (52 - m.log2) := by
    rw [power, Nat.mul_comm]
    exact Nat.mul_le_mul_right _ above
  have upper : m * 2 ^ (52 - m.log2) < 2 ^ 53 := by
    calc m * 2 ^ (52 - m.log2) < 2 ^ (m.log2 + 1) * 2 ^ (52 - m.log2) :=
          Nat.mul_lt_mul_of_pos_right below (Nat.two_pow_pos _)
      _ = 2 ^ 53 := by
          rw [← Nat.pow_add]
          congr 1
          omega
  have magnitude : binary64.magnitude m 0 = (1022 + m.log2) * 2 ^ 52 + m * 2 ^ (52 - m.log2) := by
    rw [Format.magnitude, if_neg nonzero, Format.significand, shift, emin, infinity, unit, up, none, exponent,
      Nat.pow_zero, nearest_one]
    apply Nat.min_eq_right
    omega
  have sign : signed neg m < 0 ↔ neg = true := by
    cases neg with
    | false => exact iff_of_false (Int.not_lt.mpr (Int.natCast_nonneg m)) Bool.false_ne_true
    | true =>
        apply iff_of_true _ rfl
        change -(m : Int) < 0
        omega
  apply BitVec.eq_of_toNat_eq
  rw [toNat_word, magnitude, Num.ofInt]
  dsimp only
  rw [natAbs_signed, if_neg nonzero, shifted, BitVec.toNat_ofNat, Nat.mod_eq_of_lt]
  · simp only [sign]
    split <;> omega
  · simp only [sign]
    split <;> omega

end

theorem isZero_word (neg : Bool) (e : Int) : (word neg 0 e).isZero = true := by
  have zero : binary64.magnitude 0 e = 0 := by rw [Format.magnitude, if_pos rfl]
  rw [word, zero]
  cases neg <;> rfl

/-! ## Conversions -/

/-- The bit above a number. -/
theorem xor_two_pow {a n : Nat} (small : a < 2 ^ n) : a ^^^ 2 ^ n = 2 ^ n + a := by
  have high : (a ^^^ 2 ^ n) / 2 ^ n = 1 := by
    rw [Nat.xor_div_two_pow, Nat.div_eq_of_lt small, Nat.div_self (Nat.two_pow_pos n), Nat.zero_xor]
  have low : (a ^^^ 2 ^ n) % 2 ^ n = a := by
    rw [Nat.xor_mod_two_pow, Nat.mod_eq_of_lt small, Nat.mod_self, Nat.xor_zero]
  have parts := Nat.div_add_mod (a ^^^ 2 ^ n) (2 ^ n)
  rwa [high, low, Nat.mul_one, eq_comm] at parts

theorem flipSign_word (m : Nat) : Num.flipSign (word false m 0) = word true m 0 := by
  have signBit : (0x8000000000000000 : BitVec 64).toNat = 2 ^ 63 := rfl
  apply BitVec.eq_of_toNat_eq
  rw [Num.flipSign, BitVec.toNat_xor, toNat_word, toNat_word, signBit, if_neg Bool.false_ne_true, if_pos rfl,
    Nat.zero_add, xor_two_pow (magnitude_lt m 0)]

theorem toDouble_eq {x : BitVec 64} (positive : x.toNat < 2 ^ 63) (neg : Bool) : toDouble x neg = word neg x.toNat 0 := by
  have value : x.toInt = x.toNat := BitVec.toInt_eq_toNat_of_lt (by omega)
  have plain : BitVec.ofNat 64 (binary64.ofInt x.toInt) = word false x.toNat 0 := by
    rw [value, Format.ofInt, Int.natAbs_natCast, decide_eq_false (Int.not_lt.mpr (Int.natCast_nonneg _))]
    rfl
  rw [toDouble, plain]
  cases neg
  · rfl
  · exact flipSign_word x.toNat

/-- The double of an integer. -/
theorem isDouble_word (neg : Bool) (v : Nat) : IsDouble neg v (word neg v 0) := by
  rcases Nat.lt_or_ge v (2 ^ 53) with small | large
  · left
    refine ⟨small, ?_⟩
    by_cases zero : v = 0
    · right
      subst zero
      exact ⟨rfl, isZero_word neg 0⟩
    · left
      exact word_small neg zero small
  · right
    have nonzero : v ≠ 0 := by omega
    have length : 53 ≤ v.log2 := (Nat.le_log2 nonzero).mpr large
    exact word_large neg nonzero (by omega)

theorem isDouble_toDouble {x : BitVec 64} (positive : x.toNat < 2 ^ 63) (neg : Bool) :
    IsDouble neg x.toNat (toDouble x neg) := by
  rw [toDouble_eq positive]
  exact isDouble_word neg x.toNat

/-- Scaling up does not make a double smaller. -/
theorem ldexp_large {v : Nat} {ex : Int} (neg : Bool) (large : 2 ^ 53 ≤ v) (small : v < 2 ^ 63) (up : 0 ≤ ex) :
    1076 ≤ (ldexp (word neg v 0) ex).expBits := by
  have nonzero : v ≠ 0 := by omega
  have length : 53 ≤ v.log2 := (Nat.le_log2 nonzero).mpr large
  have short : v.log2 < 63 := (Nat.log2_lt nonzero).mpr small
  have emax : binary64.emax = 1024 := by decide
  have room : (v.log2 + 1 + (0 : Int)) < binary64.emax := by
    rw [emax]
    omega
  have ⟨m', e', decoded, same⟩ := binary64.decode_magnitude neg nonzero room
  have unit : binary64.unit = 2 ^ 52 := rfl
  have prec : binary64.prec = 53 := rfl
  have emin : binary64.emin = -1074 := by decide
  have shift : (v.log2 + 1 - binary64.prec : Int) ≤ binary64.shift v 0 := Int.le_max_left ..
  have ⟨_, normal⟩ := binary64.significand_bounds nonzero 0
  rw [unit, emin] at normal
  rw [prec] at shift
  have full : 2 ^ 52 ≤ binary64.significand v 0 := by
    apply normal.resolve_right
    omega
  have nonzero' : binary64.significand v 0 ≠ 0 := by omega
  have length' : 52 ≤ (binary64.significand v 0).log2 := (Nat.le_log2 nonzero').mpr full
  have isWord : (word neg v 0).toNat = binary64.encode neg (binary64.magnitude v 0) := toNat_word neg v 0
  have scaled (m k : Nat) (e : Int) :
      binary64.magnitude (m * 2 ^ k) (e + ex) = binary64.magnitude m (e + k + ex) := by
    rw [binary64.magnitude_scale, Int.add_right_comm]
  have lifted : binary64.magnitude m' (e' + ex) =
      binary64.magnitude (binary64.significand v 0) (0 + binary64.shift v 0 + ex) :=
    same.lift (F := fun m e => binary64.magnitude m (e + ex)) scaled
  have result : ldexp (word neg v 0) ex =
      word neg (binary64.significand v 0) (0 + binary64.shift v 0 + ex) := by
    rw [ldexp, isWord, decoded]
    dsimp only
    rw [lifted]
    rfl
  rw [result]
  exact word_large neg nonzero' (by omega)

/-- A double that is scaled up, or not at all. -/
theorem strscan_double_large {x : BitVec 64} {ex2 : Int} (neg : Bool) (large : 2 ^ 53 ≤ x.toNat)
    (positive : x.toNat < 2 ^ 63) (up : 0 ≤ ex2) : 1076 ≤ (strscan_double x ex2 neg).expBits := by
  have normal : ¬(ex2 ≤ -1075 ∧ x ≠ 0) := fun both => absurd both.1 (by omega)
  rw [strscan_double, if_neg normal, toDouble_eq positive]
  split
  · exact ldexp_large neg large positive up
  · have nonzero : x.toNat ≠ 0 := by omega
    have length : 53 ≤ x.toNat.log2 := (Nat.le_log2 nonzero).mpr large
    exact word_large neg nonzero (by omega)

/-! ## Conversions to integers -/

theorem isZero_ofInt {i : Int} (small : i.natAbs < 2 ^ 53) (zero : (Num.ofInt i).isZero = true) : i = 0 := by
  by_contra notZero
  have exponent := (Num.fields_ofInt notZero small).1
  rcases Num.isZero_iff.mp zero with plus | minus
  · rw [plus] at exponent
    have none : Num.expBits 0 = 0 := rfl
    omega
  · rw [minus] at exponent
    have none : Num.expBits 0x8000000000000000 = 0 := rfl
    omega

/-- Integers of at most 53 bits have different doubles. -/
theorem ofInt_inj {i j : Int} (small : i.natAbs < 2 ^ 53) (small' : j.natAbs < 2 ^ 53)
    (same : Num.ofInt i = Num.ofInt j) : i = j := by
  by_cases zero : i = 0
  · have isZero : (Num.ofInt j).isZero = true := by
      rw [← same, zero]
      rfl
    rw [zero, isZero_ofInt small' isZero]
  by_cases zero' : j = 0
  · have isZero : (Num.ofInt i).isZero = true := by
      rw [same, zero']
      rfl
    exact absurd (isZero_ofInt small isZero) zero
  have ⟨exponent, mantissa, lower, sign⟩ := Num.fields_ofInt zero small
  have ⟨exponent', mantissa', lower', sign'⟩ := Num.fields_ofInt zero' small'
  rw [same] at exponent mantissa sign
  have length : i.natAbs.log2 = j.natAbs.log2 := by omega
  have scaled : i.natAbs * 2 ^ (52 - i.natAbs.log2) = j.natAbs * 2 ^ (52 - i.natAbs.log2) := by
    rw [← length] at mantissa' lower'
    omega
  have magnitude : i.natAbs = j.natAbs := Nat.eq_of_mul_eq_mul_right (Nat.two_pow_pos _) scaled
  have negative : decide (i < 0) = decide (j < 0) := sign.symm.trans sign'
  rw [decide_eq_decide] at negative
  omega

/-- An integer that a double is equal to is the one it was converted from. -/
theorem eq_ofInt {neg : Bool} {v : Nat} {n : Num} (isDouble : IsDouble neg v n) {i : Int}
    (small : i.natAbs ≤ 2 ^ 31) (same : Num.eq n (Num.ofInt i) = true) : signed neg v = i := by
  have ⟨_, _, equal⟩ := Num.eq_true_iff.mp same
  have short : i.natAbs < 2 ^ 53 := by omega
  have zeroOf (zero : i = 0) (none : v = 0) : signed neg v = i := by
    rw [zero, none]
    cases neg <;> rfl
  rcases isDouble with ⟨below, rfl | ⟨none, isZero⟩⟩ | large
  · have short' : (signed neg v).natAbs < 2 ^ 53 := by rwa [natAbs_signed]
    rcases equal with same | ⟨zero, zero'⟩
    · exact ofInt_inj short' short same
    · rw [isZero_ofInt short' zero, isZero_ofInt short zero']
  · rcases equal with rfl | ⟨_, zero'⟩
    · exact zeroOf (isZero_ofInt short isZero) none
    · exact zeroOf (isZero_ofInt short zero') none
  · exfalso
    rcases equal with rfl | ⟨zero, _⟩
    · by_cases notZero : i = 0
      · rw [notZero] at large
        revert large
        decide
      · have exponent := (Num.fields_ofInt notZero short).1
        have length : i.natAbs.log2 < 32 := (Nat.log2_lt (Int.natAbs_ne_zero.mpr notZero)).mpr (by omega)
        omega
    · rcases Num.isZero_iff.mp zero with rfl | rfl <;> revert large <;> decide

end TvmJit.Scan
