import TvmJit.Fmt.Integer
import Mathlib.Data.Nat.Digits.Lemmas

/-! What `printf` specifies for integers, and that it is what `lj_strfmt_putfxint` writes. -/

namespace TvmJit.Fmt

/-! ## The specification -/

def digitChar (upper : Bool) (d : Nat) : UInt8 := .ofNat (if d < 10 then 48 + d else if upper then 55 + d else 87 + d)

/-- A number without leading zeros, which is nothing for 0. -/
def shown (base : Nat) (upper : Bool) (n : Nat) : GCstr := (Nat.digits base n).reverse.map (digitChar upper)

namespace Conversion

def isSigned : Conversion → Bool
  | d | i => true
  | u | x | X | o => false

def base : Conversion → Nat
  | d | i | u => 10
  | x | X => 16
  | o => 8

def upper (conversion : Conversion) : Bool := conversion = X

end Conversion

namespace FormatSpec

variable (f : FormatSpec) (k : BitVec 64)

def has (flag : Flag) : Bool := flag ∈ f.flags

def magnitude : Nat := if f.conversion.isSigned then k.toInt.natAbs else k.toNat

def magnitudeText : GCstr := shown f.conversion.base f.conversion.upper (f.magnitude k)

/-- At least so many digits, with one more than there are for an alternative octal form. -/
def least : Nat :=
  max (f.prec.elim 1 Fin.val) (if f.conversion = .o ∧ f.has .alt then (f.magnitudeText k).length + 1 else 0)

/-- The digits of the number. -/
def number : GCstr := List.replicate (f.least k - (f.magnitudeText k).length) '0'.toUInt8 ++ f.magnitudeText k

/-- The sign, or the mark of an alternative hexadecimal form that is not 0. -/
def sign : GCstr :=
  if f.conversion.isSigned then
    if k.toInt < 0 then ['-'.toUInt8]
    else if f.has .plus then ['+'.toUInt8]
    else if f.has .space then [' '.toUInt8]
    else []
  else if f.conversion.base = 16 ∧ f.has .alt ∧ k ≠ 0 then
    ['0'.toUInt8, if f.conversion.upper then 'X'.toUInt8 else 'x'.toUInt8]
  else []

/-- What `printf` writes. -/
def printf : GCstr :=
  let fill := f.width - ((f.sign k).length + (f.number k).length)
  if f.has .left then f.sign k ++ f.number k ++ List.replicate fill ' '.toUInt8
  else if f.has .zero ∧ f.prec = none then f.sign k ++ List.replicate fill '0'.toUInt8 ++ f.number k
  else List.replicate fill ' '.toUInt8 ++ f.sign k ++ f.number k

end FormatSpec

/-! ## Digits -/

theorem shown_zero (base : Nat) (upper : Bool) : shown base upper 0 = [] := by
  rw [shown, Nat.digits_zero]
  rfl

/-- The last digit is put in front of what is behind it. -/
theorem shown_step {base n : Nat} (upper : Bool) (large : 1 < base) (notZero : n ≠ 0) (q : GCstr) :
    shown base upper (n / base) ++ digitChar upper (n % base) :: q = shown base upper n ++ q := by
  have parts : shown base upper n = shown base upper (n / base) ++ [digitChar upper (n % base)] := by
    rw [shown, Nat.digits_def' large (Nat.pos_of_ne_zero notZero), List.reverse_cons, List.map_append]
    rfl
  rw [parts, List.append_assoc]
  rfl

theorem shown_last {base n : Nat} (upper : Bool) (large : 1 < base) (notZero : n ≠ 0) (last : n / base = 0) (q : GCstr) :
    digitChar upper (n % base) :: q = shown base upper n ++ q := by
  have step := shown_step upper large notZero q
  rw [last, shown_zero] at step
  exact step

section

variable {w : Nat} {k : BitVec w}

theorem toNat_ne_zero (notZero : k ≠ 0) : k.toNat ≠ 0 := fun zero => notZero (BitVec.eq_of_toNat_eq zero)

theorem toNat_eq_zero (zero : ¬k ≠ 0) : k.toNat = 0 := by
  rw [Decidable.not_not.mp zero]
  rfl

end

theorem digit_eq {d : BitVec 32} (small : d.toNat < 10) (upper : Bool) : digit d = digitChar upper d.toNat := by
  have value : d = .ofNat 32 d.toNat := by rw [BitVec.ofNat_toNat, BitVec.setWidth_eq]
  have each : ∀ n < 10, digit (.ofNat 32 n) = .ofNat (48 + n) := by decide
  rw [digitChar, if_pos small, ← each _ small, ← value]

theorem decLoop_eq (k2 : BitVec 32) (q : GCstr) (notZero : k2 ≠ 0) : decLoop k2 q = shown 10 false k2.toNat ++ q := by
  have ten : (10 : BitVec 32).toNat = 10 := rfl
  have last (k2 : BitVec 32) : digit (k2 % 10) = digitChar false (k2.toNat % 10) := by
    have value : (k2 % 10).toNat = k2.toNat % 10 := BitVec.toNat_umod
    rw [digit_eq (by omega) false, value]
  fun_induction decLoop k2 q with
  | case1 k2 q q' more induction =>
      have value : (k2 / 10).toNat = k2.toNat / 10 := BitVec.toNat_udiv
      rw [induction more, value, ← shown_step _ (by decide) (toNat_ne_zero notZero), ← last]
  | case2 k2 q q' done =>
      have value : (k2 / 10).toNat = k2.toNat / 10 := BitVec.toNat_udiv
      rw [← shown_last _ (by decide) (toNat_ne_zero notZero) (value ▸ toNat_eq_zero done), ← last]

theorem decimalLoop_eq (k : BitVec 64) (q : GCstr) (notZero : k ≠ 0) :
    decimalLoop k q = shown 10 false k.toNat ++ q := by
  have ten : (10 : BitVec 64).toNat = 10 := rfl
  fun_induction decimalLoop k q with
  | case1 k q high induction =>
      have isHigh := toNat_ne_zero high
      rw [BitVec.toNat_ushiftRight, Nat.shiftRight_eq_div_pow] at isHigh
      have value : (k / 10).toNat = k.toNat / 10 := BitVec.toNat_udiv
      have remainder : ((k % 10).setWidth 32).toNat = k.toNat % 10 := by
        rw [BitVec.toNat_setWidth, BitVec.toNat_umod, ten]
        omega
      have more : k / 10 ≠ 0 := by
        intro zero
        have isZero := congrArg BitVec.toNat zero
        rw [value] at isZero
        change _ = 0 at isZero
        omega
      rw [induction more, value, ← shown_step _ (by decide) (toNat_ne_zero notZero), digit_eq (by omega) false, remainder]
  | case2 k q low =>
      have isLow := toNat_eq_zero low
      rw [BitVec.toNat_ushiftRight, Nat.shiftRight_eq_div_pow] at isLow
      have value : (k.setWidth 32).toNat = k.toNat := by
        rw [BitVec.toNat_setWidth]
        omega
      have some : k.setWidth 32 ≠ 0 := by
        intro zero
        have isZero := congrArg BitVec.toNat zero
        rw [value] at isZero
        exact toNat_ne_zero notZero isZero
      rw [decLoop_eq _ _ some, value]

theorem hexdig_getD (upper : Bool) : ∀ d < 16, (hexdig upper).getD d 0 = digitChar upper d := by
  cases upper <;> decide +kernel

theorem hexLoop_eq (upper : Bool) (k : BitVec 64) (q : GCstr) (notZero : k ≠ 0) :
    hexLoop upper k q = shown 16 upper k.toNat ++ q := by
  have value (k : BitVec 64) : (k >>> 4).toNat = k.toNat / 16 := by
    rw [BitVec.toNat_ushiftRight, Nat.shiftRight_eq_div_pow]
  have last (k : BitVec 64) : (hexdig upper).getD (k &&& 15).toNat 0 = digitChar upper (k.toNat % 16) := by
    have mask : (15 : BitVec 64).toNat = 2 ^ 4 - 1 := rfl
    rw [BitVec.toNat_and, mask, Nat.and_two_pow_sub_one_eq_mod]
    exact hexdig_getD upper _ (Nat.mod_lt _ (by decide))
  fun_induction hexLoop upper k q with
  | case1 k q q' more induction =>
      rw [induction more, value, ← shown_step _ (by decide) (toNat_ne_zero notZero), ← last]
  | case2 k q q' done =>
      rw [← shown_last _ (by decide) (toNat_ne_zero notZero) (value k ▸ toNat_eq_zero done), ← last]

theorem octLoop_eq (k : BitVec 64) (q : GCstr) (notZero : k ≠ 0) : octLoop k q = shown 8 false k.toNat ++ q := by
  have value (k : BitVec 64) : (k >>> 3).toNat = k.toNat / 8 := by
    rw [BitVec.toNat_ushiftRight, Nat.shiftRight_eq_div_pow]
  have last (k : BitVec 64) : digit ((k &&& 7).setWidth 32) = digitChar false (k.toNat % 8) := by
    have mask : (7 : BitVec 64).toNat = 2 ^ 3 - 1 := rfl
    have remainder : ((k &&& 7).setWidth 32).toNat = k.toNat % 8 := by
      rw [BitVec.toNat_setWidth, BitVec.toNat_and, mask, Nat.and_two_pow_sub_one_eq_mod]
      omega
    rw [digit_eq (by omega) false, remainder]
  fun_induction octLoop k q with
  | case1 k q q' more induction =>
      rw [induction more, value, ← shown_step _ (by decide) (toNat_ne_zero notZero), ← last]
  | case2 k q q' done =>
      rw [← shown_last _ (by decide) (toNat_ne_zero notZero) (value k ▸ toNat_eq_zero done), ← last]

/-- No number of 64 bits has more than 22 digits. -/
theorem length_shown {base n : Nat} (upper : Bool) (large : 8 ≤ base) (small : n < 2 ^ 64) :
    (shown base upper n).length ≤ 22 := by
  rw [shown, List.length_map, List.length_reverse, Nat.digits_length_le_iff (by omega)]
  calc n < 8 ^ 22 := by omega
    _ ≤ base ^ 22 := Nat.pow_le_pow_left large 22

/-! ## Fields of the format -/

/-- Each flag once. -/
def flagWord (left plus zero space alt : Bool) : SFormat :=
  (if left then STRFMT_F_LEFT else 0) ||| (if plus then STRFMT_F_PLUS else 0) ||| (if zero then STRFMT_F_ZERO else 0) |||
    (if space then STRFMT_F_SPACE else 0) ||| (if alt then STRFMT_F_ALT else 0)

theorem flagBits_eq (flags : List Flag) : flagBits flags = flagWord (Flag.left ∈ flags) (Flag.plus ∈ flags)
    (Flag.zero ∈ flags) (Flag.space ∈ flags) (Flag.alt ∈ flags) := by
  induction flags with
  | nil => rfl
  | cons flag flags induction =>
      have step : ∀ left plus zero space alt, flag.bit ||| flagWord left plus zero space alt =
          flagWord (flag == .left || left) (flag == .plus || plus) (flag == .zero || zero) (flag == .space || space)
            (flag == .alt || alt) := by
        cases flag <;> decide
      have member (other : Flag) : decide (other ∈ flag :: flags) = (flag == other || decide (other ∈ flags)) := by
        have same : decide (other = flag) = (flag == other) := by cases flag <;> cases other <;> rfl
        rw [← same, ← Bool.decide_or]
        exact decide_eq_decide.mpr List.mem_cons
      rw [flagBits, List.foldr_cons, ← flagBits, induction, step]
      simp only [member]

namespace FormatSpec

variable (f : FormatSpec)

/-- The flags and the conversion, where the flag for zeros may have been cleared. -/
def word (zero : Bool) : SFormat :=
  flagWord (f.has .left) (f.has .plus) zero (f.has .space) (f.has .alt) ||| f.conversion.bits

/-- The precision as it is stored: 0 for none. -/
def precWord : BitVec 32 := f.prec.elim 0 fun prec => BitVec.ofNat 32 prec + 1

/-- Width and precision are in the upper half. -/
theorem sf_eq : f.sf = f.word (f.has .zero) ||| (BitVec.ofNat 32 f.width <<< 16 ||| f.precWord <<< 24) := by
  have prec : (f.prec.elim 0 fun prec => (BitVec.ofNat 32 prec + 1) <<< STRFMT_SH_PREC) = f.precWord <<< 24 := by
    rw [precWord]
    cases f.prec <;> rfl
  have flags : flagBits f.flags =
      flagWord (f.has .left) (f.has .plus) (f.has .zero) (f.has .space) (f.has .alt) := flagBits_eq f.flags
  have shift : STRFMT_SH_WIDTH = 16 := rfl
  rw [sf, prec, flags, word, shift, BitVec.or_assoc, BitVec.or_assoc, BitVec.or_assoc,
    BitVec.or_comm f.conversion.bits, BitVec.or_assoc]

theorem word_small (zero : Bool) : (f.word zero).toNat < 2 ^ 16 := by
  have each : ∀ left plus zero space alt, ∀ conversion : Conversion,
      (flagWord left plus zero space alt ||| conversion.bits).toNat < 2 ^ 16 := by
    intro left plus zero space alt conversion
    revert left plus zero space alt
    cases conversion <;> decide +kernel
  exact each ..

theorem getLsbD_high {w : Nat} {x : BitVec w} {n i : Nat} (small : x.toNat < 2 ^ n) (high : n ≤ i) :
    x.getLsbD i = false :=
  Nat.testBit_lt_two_pow (small.trans_le (Nat.pow_le_pow_right (by decide) high))

theorem getLsbD_byte (i : Nat) : (255 : BitVec 32).getLsbD i = decide (i < 8) := by
  have mask : (255 : BitVec 32).toNat = 2 ^ 8 - 1 := rfl
  rw [BitVec.getLsbD, mask, Nat.testBit_two_pow_sub_one]

theorem and_sf {mask : SFormat} (low : mask.toNat < 2 ^ 16) : f.sf &&& mask = f.word (f.has .zero) &&& mask := by
  apply BitVec.eq_of_getLsbD_eq
  intro i inside
  rw [sf_eq]
  simp only [BitVec.getLsbD_and, BitVec.getLsbD_or, BitVec.getLsbD_shiftLeft]
  rcases Nat.lt_or_ge i 16 with isLow | isHigh
  · have below : i < 24 := by omega
    simp [isLow, below]
  · rw [getLsbD_high low isHigh, Bool.and_false, Bool.and_false]

theorem width_sf : STRFMT_WIDTH f.sf = .ofNat 32 f.width := by
  have small : (BitVec.ofNat 32 f.width).toNat < 2 ^ 8 := by
    rw [BitVec.toNat_ofNat]
    omega
  apply BitVec.eq_of_getLsbD_eq
  intro i inside
  rw [STRFMT_WIDTH, sf_eq, STRFMT_SH_WIDTH]
  simp only [BitVec.getLsbD_and, BitVec.getLsbD_or, BitVec.getLsbD_shiftLeft, BitVec.getLsbD_ushiftRight, getLsbD_byte]
  rcases Nat.lt_or_ge i 8 with isLow | isHigh
  · have noFlag := getLsbD_high (f.word_small (f.has .zero)) (Nat.le_add_right 16 i)
    have below : 16 + i < 24 := by omega
    have here : 16 + i < 32 := by omega
    rw [noFlag, Bool.false_or]
    simp [isLow, below, here]
  · rw [getLsbD_high small isHigh, decide_eq_false (Nat.not_lt_of_ge isHigh), Bool.and_false]

theorem prec_sf : STRFMT_PREC f.sf = f.precWord - 1 := by
  have small : f.precWord.toNat < 2 ^ 8 := by
    rw [precWord]
    cases f.prec with
    | none => decide
    | some prec =>
        have one : (1 : BitVec 32).toNat = 1 := rfl
        rw [Option.elim_some, BitVec.toNat_add, BitVec.toNat_ofNat, one]
        omega
  have field : f.sf >>> 24 &&& 255 = f.precWord := by
    apply BitVec.eq_of_getLsbD_eq
    intro i inside
    rw [sf_eq]
    simp only [BitVec.getLsbD_and, BitVec.getLsbD_or, BitVec.getLsbD_shiftLeft, BitVec.getLsbD_ushiftRight, getLsbD_byte]
    rcases Nat.lt_or_ge i 8 with isLow | isHigh
    · have noFlag := getLsbD_high (f.word_small (f.has .zero)) (by omega : 16 ≤ 24 + i)
      have isByte : (BitVec.ofNat 32 f.width).toNat < 2 ^ 8 := by
        rw [BitVec.toNat_ofNat]
        omega
      have noWidth := getLsbD_high isByte (by omega : 8 ≤ 24 + i - 16)
      have here : 24 + i < 32 := by omega
      rw [noFlag, Bool.false_or]
      simp [noWidth, isLow, here]
    · rw [getLsbD_high small isHigh, decide_eq_false (Nat.not_lt_of_ge isHigh), Bool.and_false]
  rw [STRFMT_PREC, STRFMT_SH_PREC, field]

end FormatSpec

end TvmJit.Fmt
