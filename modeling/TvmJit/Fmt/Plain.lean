import TvmJit.Fmt.Layout

/-! The digits of `lj_strfmt_wint`, which divides by multiplying and shifting. -/

namespace TvmJit.Fmt

/-- A number of `width` digits from its first digit on. -/
def fixed : Nat → Nat → GCstr
  | 0, _ => []
  | width + 1, n => digitChar false (n / 10 ^ width) :: fixed width (n % 10 ^ width)

/-- The last digit is that of the remainder. -/
theorem fixed_last (width n : Nat) (small : n < 10 ^ (width + 1)) :
    fixed (width + 1) n = fixed width (n / 10) ++ [digitChar false (n % 10)] := by
  induction width generalizing n with
  | zero =>
      have inside : n % 10 = n := Nat.mod_eq_of_lt small
      rw [fixed, fixed, Nat.pow_zero, Nat.div_one, inside]
      rfl
  | succ width induction =>
      have inside : n % 10 ^ (width + 1) < 10 ^ (width + 1) := Nat.mod_lt _ (by positivity)
      have power : 10 ^ (width + 1) = 10 * 10 ^ width := Nat.pow_succ'
      have head : n / 10 ^ (width + 1) = n / 10 / 10 ^ width := by rw [power, Nat.div_div_eq_div_mul]
      have middle : n % 10 ^ (width + 1) / 10 = n / 10 % 10 ^ width := by rw [power, Nat.mod_mul_right_div_self]
      have last : n % 10 ^ (width + 1) % 10 = n % 10 := by rw [power, Nat.mod_mul_right_mod]
      rw [fixed, induction _ inside, head, middle, last, fixed]
      rfl

/-- A number that has as many digits. -/
theorem fixed_eq_shown (width n : Nat) (large : 10 ^ width ≤ n) (small : n < 10 ^ (width + 1)) :
    fixed (width + 1) n = shown 10 false n := by
  induction width generalizing n with
  | zero =>
      have last := shown_last false (by decide : 1 < 10) (by omega : n ≠ 0) (by omega) []
      rw [fixed_last 0 n small, ← List.append_nil (shown 10 false n), ← last]
      rfl
  | succ width induction =>
      have power : 10 ^ (width + 1) = 10 * 10 ^ width := Nat.pow_succ'
      have power' : 10 ^ (width + 1 + 1) = 10 * 10 ^ (width + 1) := Nat.pow_succ'
      have pos : 0 < 10 ^ width := by positivity
      have step := shown_step false (by decide : 1 < 10) (by omega : n ≠ 0) []
      rw [List.append_nil] at step
      rw [fixed_last _ n small, induction (n / 10) (by omega) (by omega), step]

/-! ## Leading digits -/

/-- A leading digit is exact where the product is not too large. -/
theorem WINT_R_eq {x sh sc m : Nat} (multiplier : (1 <<< sh + sc - 1) / sc = m) (small : x * m < 2 ^ 32)
    (exact : x * m / 2 ^ sh = x / sc) (leading : x / sc < 10) :
    WINT_R (.ofNat 32 x) sh sc = (digitChar false (x / sc), .ofNat 32 (x % sc)) := by
  have product : BitVec.ofNat 32 x * BitVec.ofNat 32 m = BitVec.ofNat 32 (x * m) := (BitVec.ofNat_mul ..).symm
  have quotient : (BitVec.ofNat 32 x * BitVec.ofNat 32 m) >>> sh = BitVec.ofNat 32 (x / sc) := by
    apply BitVec.eq_of_toNat_eq
    rw [product, BitVec.toNat_ushiftRight, BitVec.toNat_ofNat, Nat.mod_eq_of_lt small, Nat.shiftRight_eq_div_pow,
      exact, BitVec.toNat_ofNat, Nat.mod_eq_of_lt (by omega)]
  have value : (BitVec.ofNat 32 (x / sc)).toNat = x / sc := by
    rw [BitVec.toNat_ofNat, Nat.mod_eq_of_lt (by omega)]
  have remainder : BitVec.ofNat 32 x - BitVec.ofNat 32 (x / sc) * BitVec.ofNat 32 sc = BitVec.ofNat 32 (x % sc) := by
    have parts : x = x % sc + x / sc * sc := (Nat.mod_add_div' x sc).symm
    have whole : BitVec.ofNat 32 x = BitVec.ofNat 32 (x % sc) + BitVec.ofNat 32 (x / sc) * BitVec.ofNat 32 sc := by
      rw [← BitVec.ofNat_mul, ← BitVec.ofNat_add, ← parts]
    rw [whole, BitVec.add_sub_cancel]
  have leadingValue : digit (.ofNat 32 (x / sc)) = digitChar false (x / sc) := by
    rw [digit_eq (by rw [value]; exact leading) false, value]
  rw [WINT_R, multiplier, quotient, remainder, leadingValue]

section

variable {x : Nat}

theorem WINT_R_ten (small : x < 100) :
    WINT_R (.ofNat 32 x) 10 10 = (digitChar false (x / 10), .ofNat 32 (x % 10)) :=
  WINT_R_eq (m := 103) (by decide) (by omega) (by omega) (by omega)

theorem WINT_R_hundred (small : x < 1000) :
    WINT_R (.ofNat 32 x) 12 100 = (digitChar false (x / 100), .ofNat 32 (x % 100)) :=
  WINT_R_eq (m := 41) (by decide) (by omega) (by omega) (by omega)

theorem WINT_R_thousand (small : x < 10000) :
    WINT_R (.ofNat 32 x) 23 1000 = (digitChar false (x / 1000), .ofNat 32 (x % 1000)) :=
  WINT_R_eq (m := 8389) (by decide) (by omega) (by omega) (by omega)

theorem digit_ofNat (small : x < 10) : digit (.ofNat 32 x) = digitChar false x := by
  have value : (BitVec.ofNat 32 x).toNat = x := by
    rw [BitVec.toNat_ofNat]
    omega
  rw [digit_eq (by omega) false, value]

end

/-! ## From a label on -/

section

variable {u v w : Nat}

theorem dig1_eq (small : u < 10) : dig1 (.ofNat 32 u) = fixed 1 u := by
  rw [dig1, digit_ofNat small, fixed, fixed, Nat.pow_zero, Nat.div_one]

theorem dig2_eq (small : u < 100) : dig2 (.ofNat 32 u) = fixed 2 u := by
  rw [dig2, WINT_R_ten small, dig1_eq (Nat.mod_lt _ (by decide))]
  rfl

theorem dig3_eq (small : u < 1000) : dig3 (.ofNat 32 u) = fixed 3 u := by
  rw [dig3, WINT_R_hundred small, dig2_eq (Nat.mod_lt _ (by decide))]
  rfl

theorem dig4_eq (small : u < 10000) : dig4 (.ofNat 32 u) = fixed 4 u := by
  rw [dig4, WINT_R_thousand small, dig3_eq (Nat.mod_lt _ (by decide))]
  rfl

/-- A digit in front of `width` more. -/
theorem fixed_cons {width d n x : Nat} (head : x / 10 ^ width = d) (tail : x % 10 ^ width = n) :
    digitChar false d :: fixed width n = fixed (width + 1) x := by
  rw [fixed, head, tail]

theorem dig5_eq (smallU : u < 10000) (small : v < 10) :
    dig5 (.ofNat 32 u) (.ofNat 32 v) = fixed 5 (v * 10000 + u) := by
  rw [dig5, digit_ofNat small, dig4_eq smallU]
  apply fixed_cons <;> omega

theorem dig6_eq (smallU : u < 10000) (small : v < 100) :
    dig6 (.ofNat 32 u) (.ofNat 32 v) = fixed 6 (v * 10000 + u) := by
  rw [dig6, WINT_R_ten small, dig5_eq smallU (Nat.mod_lt _ (by decide))]
  apply fixed_cons <;> omega

theorem dig7_eq (smallU : u < 10000) (small : v < 1000) :
    dig7 (.ofNat 32 u) (.ofNat 32 v) = fixed 7 (v * 10000 + u) := by
  rw [dig7, WINT_R_hundred small, dig6_eq smallU (Nat.mod_lt _ (by decide))]
  apply fixed_cons <;> omega

theorem dig8_eq (smallU : u < 10000) (small : v < 10000) :
    dig8 (.ofNat 32 u) (.ofNat 32 v) = fixed 8 (v * 10000 + u) := by
  rw [dig8, WINT_R_thousand small, dig7_eq smallU (Nat.mod_lt _ (by decide))]
  apply fixed_cons <;> omega

theorem dig9_eq (smallU : u < 10000) (smallV : v < 10000) (small : w < 10) :
    dig9 (.ofNat 32 u) (.ofNat 32 v) (.ofNat 32 w) = fixed 9 (w * 100000000 + v * 10000 + u) := by
  rw [dig9, digit_ofNat small, dig8_eq smallU smallV]
  apply fixed_cons <;> omega

theorem dig10_eq (smallU : u < 10000) (smallV : v < 10000) (small : w < 100) :
    dig10 (.ofNat 32 u) (.ofNat 32 v) (.ofNat 32 w) = fixed 10 (w * 100000000 + v * 10000 + u) := by
  rw [dig10, WINT_R_ten small, dig9_eq smallU smallV (Nat.mod_lt _ (by decide))]
  apply fixed_cons <;> omega

end

/-- A quotient of 32 bits and what is left. -/
theorem udiv_10000 {x : Nat} (small : x < 2 ^ 32) : BitVec.ofNat 32 x / 10000 = .ofNat 32 (x / 10000) ∧
    BitVec.ofNat 32 x - .ofNat 32 (x / 10000) * 10000 = .ofNat 32 (x % 10000) := by
  have value : (10000 : BitVec 32).toNat = 10000 := rfl
  constructor
  · apply BitVec.eq_of_toNat_eq
    rw [BitVec.toNat_udiv, value, BitVec.toNat_ofNat, BitVec.toNat_ofNat]
    omega
  · apply BitVec.eq_of_toNat_eq
    rw [BitVec.toNat_sub, BitVec.toNat_mul, value, BitVec.toNat_ofNat, BitVec.toNat_ofNat, BitVec.toNat_ofNat]
    omega

/-- Comparisons of 32 bits. -/
theorem ofNat_lt {x bound : Nat} (small : x < 2 ^ 32) (inside : bound < 2 ^ 32) :
    BitVec.ofNat 32 x < BitVec.ofNat 32 bound ↔ x < bound := by
  change (BitVec.ofNat 32 x).toNat < (BitVec.ofNat 32 bound).toNat ↔ _
  rw [BitVec.toNat_ofNat, BitVec.toNat_ofNat, Nat.mod_eq_of_lt small, Nat.mod_eq_of_lt inside]

/-- The labels and what is left for them. -/
theorem wintDigits_ofNat {n : Nat} (small : n < 2 ^ 32) : wintDigits (.ofNat 32 n) =
    if n < 10000 then
      if n < 10 then dig1 (.ofNat 32 n)
      else if n < 100 then dig2 (.ofNat 32 n)
      else if n < 1000 then dig3 (.ofNat 32 n)
      else dig4 (.ofNat 32 n)
    else
      if n / 10000 < 10000 then
        if n / 10000 < 10 then dig5 (.ofNat 32 (n % 10000)) (.ofNat 32 (n / 10000))
        else if n / 10000 < 100 then dig6 (.ofNat 32 (n % 10000)) (.ofNat 32 (n / 10000))
        else if n / 10000 < 1000 then dig7 (.ofNat 32 (n % 10000)) (.ofNat 32 (n / 10000))
        else dig8 (.ofNat 32 (n % 10000)) (.ofNat 32 (n / 10000))
      else if n / 10000 / 10000 < 10 then
        dig9 (.ofNat 32 (n % 10000)) (.ofNat 32 (n / 10000 % 10000)) (.ofNat 32 (n / 10000 / 10000))
      else dig10 (.ofNat 32 (n % 10000)) (.ofNat 32 (n / 10000 % 10000)) (.ofNat 32 (n / 10000 / 10000)) := by
  have smallV : n / 10000 < 2 ^ 32 := by omega
  have smallW : n / 10000 / 10000 < 2 ^ 32 := by omega
  have ⟨quotient, remainder⟩ := udiv_10000 small
  have ⟨quotientV, remainderV⟩ := udiv_10000 smallV
  have largeW : BitVec.ofNat 32 (n / 10000 / 10000) ≥ 10 ↔ ¬n / 10000 / 10000 < 10 := by
    rw [← ofNat_lt smallW (by decide : 10 < 2 ^ 32)]
    exact BitVec.not_lt.symm
  have less {x : Nat} (smallX : x < 2 ^ 32) : (BitVec.ofNat 32 x < 10 ↔ x < 10) ∧
      (BitVec.ofNat 32 x < 100 ↔ x < 100) ∧ (BitVec.ofNat 32 x < 1000 ↔ x < 1000) ∧
      (BitVec.ofNat 32 x < 10000 ↔ x < 10000) :=
    ⟨ofNat_lt smallX (by decide), ofNat_lt smallX (by decide), ofNat_lt smallX (by decide),
      ofNat_lt smallX (by decide)⟩
  have ⟨ten, hundred, thousand, large⟩ := less small
  have ⟨tenV, hundredV, thousandV, largeV⟩ := less smallV
  simp only [wintDigits, quotient, remainder, quotientV, remainderV, ten, hundred, thousand, large, tenV, hundredV,
    thousandV, largeV, largeW, ite_not]

theorem wintDigits_eq {n : Nat} (small : n < 2 ^ 32) (notZero : n ≠ 0) :
    wintDigits (.ofNat 32 n) = shown 10 false n := by
  have smallU : n % 10000 < 10000 := Nat.mod_lt _ (by decide)
  have smallV : n / 10000 % 10000 < 10000 := Nat.mod_lt _ (by decide)
  have two : n / 10000 * 10000 + n % 10000 = n := Nat.div_add_mod' n 10000
  have three : n / 10000 / 10000 * 100000000 + n / 10000 % 10000 * 10000 + n % 10000 = n := by
    have high : n / 10000 / 10000 * 10000 + n / 10000 % 10000 = n / 10000 := Nat.div_add_mod' (n / 10000) 10000
    have square : 100000000 = 10000 * 10000 := by norm_num
    rw [square, ← Nat.mul_assoc, ← Nat.add_mul, high, two]
  rw [wintDigits_ofNat small]
  split
  · split
    · rw [dig1_eq (by omega), fixed_eq_shown 0 n (by omega) (by omega)]
    split
    · rw [dig2_eq (by omega), fixed_eq_shown 1 n (by omega) (by omega)]
    split
    · rw [dig3_eq (by omega), fixed_eq_shown 2 n (by omega) (by omega)]
    · rw [dig4_eq (by omega), fixed_eq_shown 3 n (by omega) (by omega)]
  split
  · split
    · rw [dig5_eq smallU (by omega), two, fixed_eq_shown 4 n (by omega) (by omega)]
    split
    · rw [dig6_eq smallU (by omega), two, fixed_eq_shown 5 n (by omega) (by omega)]
    split
    · rw [dig7_eq smallU (by omega), two, fixed_eq_shown 6 n (by omega) (by omega)]
    · rw [dig8_eq smallU (by omega), two, fixed_eq_shown 7 n (by omega) (by omega)]
  split
  · rw [dig9_eq smallU smallV (by omega), three, fixed_eq_shown 8 n (by omega) (by omega)]
  · rw [dig10_eq smallU smallV (by omega), three, fixed_eq_shown 9 n (by omega) (by omega)]

/-! ## The specification of plain integers -/

/-- `%d`. -/
def FormatSpec.plain : FormatSpec := { flags := [], width := 0, prec := none, conversion := .d }

theorem printf_plain (k : BitVec 64) : FormatSpec.plain.printf k =
    if k.toInt < 0 then '-'.toUInt8 :: FormatSpec.plain.number k else FormatSpec.plain.number k := by
  have noFlag (flag : Flag) : FormatSpec.plain.has flag = false := rfl
  have isSigned : FormatSpec.plain.conversion.isSigned = true := rfl
  have noFill (n : Nat) : (FormatSpec.plain.width.val - n) = 0 := Nat.zero_sub n
  have isSign : FormatSpec.plain.sign k = if k.toInt < 0 then ['-'.toUInt8] else [] := by
    simp [FormatSpec.sign, noFlag, isSigned]
  rw [FormatSpec.printf, if_neg (Bool.eq_false_iff.mp (noFlag .left)),
    if_neg fun zero => Bool.eq_false_iff.mp (noFlag .zero) zero.1, isSign, noFill]
  split <;> rfl

/-- A plain number has a digit for 0. -/
theorem number_plain (k : BitVec 64) : FormatSpec.plain.number k =
    if k.toInt = 0 then ['0'.toUInt8] else shown 10 false k.toInt.natAbs := by
  have text : FormatSpec.plain.magnitudeText k = shown 10 false k.toInt.natAbs := rfl
  have least : FormatSpec.plain.least k = 1 := rfl
  rw [FormatSpec.number, least, text]
  split
  · next zero =>
      rw [zero, Int.natAbs_zero, shown_zero]
      rfl
  · next some =>
      have step := shown_step false (by decide : 1 < 10) (Int.natAbs_ne_zero.mpr some) []
      have pos : 1 ≤ (shown 10 false k.toInt.natAbs).length := by
        rw [List.append_nil] at step
        rw [← step, List.length_append]
        exact Nat.le_add_left ..
      rw [Nat.sub_eq_zero_of_le pos]
      rfl

theorem wint_plain (k : BitVec 32) : lj_strfmt_wint k = FormatSpec.plain.printf (k.signExtend 64) := by
  have extended : (k.signExtend 64).toInt = k.toInt := BitVec.toInt_signExtend_of_le (by decide)
  have value := BitVec.toInt_eq_toNat_cond k
  have bound := k.isLt
  have written (m : BitVec 32) (isValue : m.toNat = k.toInt.natAbs) :
      wintDigits m = FormatSpec.plain.number (k.signExtend 64) := by
    have isOfNat : m = .ofNat 32 k.toInt.natAbs := by rw [← isValue, BitVec.ofNat_toNat, BitVec.setWidth_eq]
    rw [number_plain, extended, isOfNat]
    split
    · next zero =>
        rw [zero]
        decide
    · next some => exact wintDigits_eq (isValue ▸ m.isLt) (Int.natAbs_ne_zero.mpr some)
  rw [printf_plain, extended, lj_strfmt_wint]
  split at value
  · rw [if_neg (by omega), if_neg (by omega), written k (by omega)]
  · have negative : (-k).toNat = k.toInt.natAbs := by
      rw [BitVec.toNat_neg]
      omega
    rw [if_pos (by omega), if_pos (by omega), written (-k) negative]

/-- Every specification with a width and a precision of up to two digits is read as what it says,
and every integer is written as `printf` writes it for the specification, in what was reserved;
without a format, an integer of 32 bits is written as for `%d`. -/
theorem putfxint_printf :
    (∀ (f : FormatSpec) (rest : GCstr), lj_strfmt_parse (f.text ++ rest) = some (f.sf, rest)) ∧
    (∀ (f : FormatSpec) (k : BitVec 64), (lj_strfmt_putfxint f.sf k).2 = f.printf k ∧
      (lj_strfmt_putfxint f.sf k).2.length = (lj_strfmt_putfxint f.sf k).1.toNat) ∧
    FormatSpec.plain.sf = STRFMT_INT ∧ ∀ k : BitVec 32, lj_strfmt_wint k = FormatSpec.plain.printf (k.signExtend 64) ∧
      lj_strfmt_wint k = (lj_strfmt_putfxint STRFMT_INT (k.signExtend 64)).2 := by
  have plain : FormatSpec.plain.sf = STRFMT_INT := by decide
  refine ⟨parse_text, fun f k => ?_, plain, fun k => ?_⟩
  · have ⟨written, reserved⟩ := putfxint_eq f k
    exact ⟨written, by rw [written, reserved]⟩
  · have ⟨written, _⟩ := putfxint_eq .plain (k.signExtend 64)
    rw [plain] at written
    exact ⟨wint_plain k, by rw [wint_plain, written]⟩

example : FormatSpec.printf { flags := [.plus, .zero], width := 6, prec := none, conversion := .d } 42 =
    .ofString "+00042" := by
  decide +kernel

end TvmJit.Fmt
