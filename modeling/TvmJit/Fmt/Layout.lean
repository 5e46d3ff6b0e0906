import TvmJit.Fmt.Printf

/-! The layout of a formatted integer, whose parts are those of the specification. -/

namespace TvmJit.Fmt

/-! ## What is tested of a format -/

/-- The tests of `lj_strfmt_putfxint`, where `zero` is whether the flag for zeros is still set. -/
structure Reads (sf : SFormat) (f : FormatSpec) (zero : Bool) : Prop where
  signed : STRFMT_TYPE sf = STRFMT_INT ↔ f.conversion.isSigned
  plus : sf &&& STRFMT_F_PLUS ≠ 0 ↔ f.has .plus
  space : sf &&& STRFMT_F_SPACE ≠ 0 ↔ f.has .space
  octal : sf &&& (STRFMT_T_OCT ||| STRFMT_F_ALT) = STRFMT_T_OCT ||| STRFMT_F_ALT ↔ f.conversion = .o ∧ f.has .alt
  decimal : sf &&& (STRFMT_T_HEX ||| STRFMT_T_OCT) = 0 ↔ f.conversion.base = 10
  hex : sf &&& STRFMT_T_HEX ≠ 0 ↔ f.conversion.base = 16
  upper : sf &&& STRFMT_F_UPPER ≠ 0 ↔ f.conversion.upper
  alt : sf &&& STRFMT_F_ALT ≠ 0 ↔ f.has .alt
  blanks : sf &&& (STRFMT_F_LEFT ||| STRFMT_F_ZERO) = 0 ↔ ¬f.has .left ∧ ¬zero
  zeros : sf &&& (STRFMT_F_LEFT ||| STRFMT_F_ZERO) = STRFMT_F_ZERO ↔ ¬f.has .left ∧ zero
  left : sf &&& STRFMT_F_LEFT ≠ 0 ↔ f.has .left

/-- The tests are on the lower half. -/
theorem reads_of_and {sf : SFormat} {f : FormatSpec} {zero : Bool}
    (same : ∀ mask : SFormat, mask.toNat < 2 ^ 16 → sf &&& mask = f.word zero &&& mask) : Reads sf f zero := by
  constructor
  all_goals
    try rw [STRFMT_TYPE]
    rw [same _ (by decide)]
    clear same
    simp only [FormatSpec.word]
    generalize f.conversion = conversion
    generalize f.has .left = left
    generalize f.has .plus = plus
    generalize f.has .space = space
    generalize f.has .alt = alt
    revert left plus zero space alt
    cases conversion <;> decide +kernel

theorem reads_sf (f : FormatSpec) : Reads f.sf f (f.has .zero) := reads_of_and fun _ => f.and_sf

/-- A precision is not negative, and none is -1. -/
theorem prec_sign (f : FormatSpec) : (STRFMT_PREC f.sf).toInt = f.prec.elim (-1 : Int) fun prec => prec.val := by
  rw [f.prec_sf, FormatSpec.precWord]
  cases f.prec with
  | none => rfl
  | some prec =>
      have value : BitVec.ofNat 32 prec + 1 - 1 = BitVec.ofNat 32 prec := BitVec.add_sub_cancel _ _
      have small : (BitVec.ofNat 32 prec).toNat = prec := by
        rw [BitVec.toNat_ofNat]
        omega
      rw [Option.elim_some, Option.elim_some, value, BitVec.toInt_eq_toNat_of_lt (by omega), small]

/-- A precision clears the flag for zeros. -/
theorem reads_cleared (f : FormatSpec) :
    Reads (if (STRFMT_PREC f.sf).toInt ≥ 0 then f.sf &&& ~~~STRFMT_F_ZERO else f.sf) f (f.has .zero && f.prec.isNone) := by
  rw [prec_sign]
  cases f.prec with
  | none =>
      rw [Option.isNone_none, Bool.and_true]
      exact reads_sf f
  | some prec =>
      rw [Option.elim_some, if_pos (Int.natCast_nonneg _), Option.isNone_some, Bool.and_false]
      apply reads_of_and
      intro mask low
      have cleared : f.word (f.has .zero) &&& ~~~STRFMT_F_ZERO = f.word false := by
        rw [FormatSpec.word, FormatSpec.word]
        generalize f.conversion = conversion
        generalize f.has .left = left
        generalize f.has .plus = plus
        generalize f.has .zero = zero
        generalize f.has .space = space
        generalize f.has .alt = alt
        revert left plus zero space alt
        cases conversion <;> decide +kernel
      calc f.sf &&& ~~~STRFMT_F_ZERO &&& mask
          = f.sf &&& mask &&& ~~~STRFMT_F_ZERO := by
            rw [BitVec.and_assoc, BitVec.and_comm (~~~STRFMT_F_ZERO), ← BitVec.and_assoc]
        _ = f.word (f.has .zero) &&& ~~~STRFMT_F_ZERO &&& mask := by
            rw [f.and_sf low, BitVec.and_assoc, BitVec.and_comm mask, ← BitVec.and_assoc]
        _ = f.word false &&& mask := by rw [cleared]

/-! ## Padding -/

theorem padLoop_fst (c : UInt8) (width least : MSize) :
    (padLoop c width least).1 = List.replicate (width.toNat - least.toNat) c := by
  induction width using padLoop.induct c least with
  | case1 width more s rest parts induction =>
      have isMore : least.toNat < width.toNat := more
      have one : (1 : MSize).toNat = 1 := rfl
      have value : (width - 1).toNat = width.toNat - 1 := by
        rw [BitVec.toNat_sub_of_le (by change (1 : MSize).toNat ≤ _; omega), one]
      have count : width.toNat - least.toNat = (width.toNat - 1 - least.toNat) + 1 := by omega
      rw [parts, value] at induction
      rw [padLoop, if_pos more, parts, count, List.replicate_succ, ← induction]
  | case2 width done =>
      have isDone : ¬least.toNat < width.toNat := done
      rw [padLoop, if_neg done, Nat.sub_eq_zero_of_le (Nat.le_of_not_lt isDone)]
      rfl

/-! ## The parts -/

namespace FormatSpec

variable (f : FormatSpec) (k : BitVec 64)

/-- The magnitude in 64 bits. -/
def unsigned : BitVec 64 := if f.conversion.isSigned ∧ k.toInt < 0 then -k else k

/-- What `prefix` is for a sign. -/
def signWord : MSize :=
  if f.conversion.isSigned then
    if k.toInt < 0 then 256 + 45 else if f.has .plus then 256 + 43 else if f.has .space then 256 + 32 else 0
  else 0

/-- What `prefix` is in the end. -/
def mark : MSize :=
  if f.conversion.base = 16 ∧ f.has .alt ∧ k ≠ 0 then
    512 + (if f.conversion.upper then 'X'.toUInt8 else 'x'.toUInt8).toBitVec.setWidth 32
  else f.signWord k

/-- How many digits the buffer has at least: there is a digit for 0 unless the precision is 0. -/
def fewest : Nat :=
  max (if f.prec = some 0 then 0 else 1)
    (if f.conversion = .o ∧ f.has .alt then (f.magnitudeText k).length + 1 else 0)

/-- The digits of the buffer. -/
def buffer : GCstr := List.replicate (f.fewest k - (f.magnitudeText k).length) '0'.toUInt8 ++ f.magnitudeText k

theorem toNat_unsigned : (f.unsigned k).toNat = f.magnitude k := by
  have bound := k.isLt
  have value := BitVec.toInt_eq_toNat_cond k
  rw [unsigned, magnitude]
  cases f.conversion.isSigned with
  | false => rw [if_neg (fun both => nomatch both.1), if_neg Bool.false_ne_true]
  | true =>
      rw [if_pos rfl]
      split at value
      · rw [if_neg (by omega)]
        omega
      · rw [if_pos ⟨rfl, by omega⟩, BitVec.toNat_neg]
        omega

theorem unsigned_eq_zero : f.unsigned k = 0 ↔ k = 0 := by
  rw [unsigned]
  split
  · constructor
    · intro zero
      have isZero := BitVec.neg_eq_zero_iff.mp zero
      exact isZero
    · intro zero
      exact BitVec.neg_eq_zero_iff.mpr zero
  · exact Iff.rfl

theorem signed_eq : signed f.sf k = (f.unsigned k, f.signWord k) := by
  have reads := reads_sf f
  simp only [signed, unsigned, signWord, reads.signed, reads.plus, reads.space]
  cases f.conversion.isSigned with
  | false => rfl
  | true =>
      simp only [if_true, true_and]
      split
      · rfl
      · split
        · rfl
        · split <;> rfl

theorem length_magnitudeText : (f.magnitudeText k).length ≤ 22 := by
  have large : 8 ≤ f.conversion.base := by cases f.conversion <;> decide
  rw [magnitudeText, ← toNat_unsigned]
  exact length_shown f.conversion.upper large (f.unsigned k).isLt

theorem length_buffer : (f.buffer k).length ≤ 23 := by
  have bound := f.length_magnitudeText k
  rw [buffer, fewest, List.length_append, List.length_replicate]
  split <;> split <;> omega

theorem least_eq : f.least k = max (f.fewest k) (f.prec.elim 0 Fin.val) := by
  rw [least, fewest, Nat.max_right_comm]
  congr 1
  cases f.prec with
  | none => rfl
  | some prec =>
      rw [Option.elim_some, Option.elim_some]
      split
      · next zero => rw [Option.some.inj zero]; rfl
      · next some =>
          have pos : prec.val ≠ 0 := fun zero => some (congrArg _ (Fin.ext zero))
          omega

/-- Zeros up to the precision are in front of the buffer. -/
theorem number_eq : f.number k =
    List.replicate (max (f.buffer k).length (f.prec.elim 0 Fin.val) - (f.buffer k).length) '0'.toUInt8 ++ f.buffer k := by
  rw [number, least_eq, buffer, List.length_append, List.length_replicate, ← List.append_assoc,
    List.replicate_append_replicate]
  congr 2
  omega

theorem magnitudeText_zero (zero : k = 0) : f.magnitudeText k = [] := by
  rw [magnitudeText, ← toNat_unsigned, (f.unsigned_eq_zero k).mpr zero]
  exact shown_zero ..

theorem magnitudeText_pos (notZero : k ≠ 0) : 0 < (f.magnitudeText k).length := by
  have large : 1 < f.conversion.base := by cases f.conversion <;> decide
  have magnitude : f.magnitude k ≠ 0 := by
    rw [← toNat_unsigned]
    exact toNat_ne_zero fun zero => notZero ((f.unsigned_eq_zero k).mp zero)
  have step := shown_step f.conversion.upper large magnitude []
  rw [List.append_nil] at step
  rw [magnitudeText, ← step, List.length_append]
  exact Nat.lt_add_left _ (Nat.succ_pos _)

theorem buffer_zero (zero : k = 0) : f.buffer k =
    if f.prec ≠ some 0 ∨ f.conversion = .o ∧ f.has .alt then ['0'.toUInt8] else [] := by
  rw [buffer, fewest, f.magnitudeText_zero k zero]
  by_cases none : f.prec = some 0
  · by_cases octal : f.conversion = .o ∧ f.has .alt
    · rw [if_pos none, if_pos octal, if_pos (.inr octal)]
      rfl
    · rw [if_pos none, if_neg octal, if_neg fun one => one.elim (fun some => some none) octal]
      rfl
  · rw [if_neg none, if_pos (Or.inl none)]
    split <;> rfl

theorem buffer_some (notZero : k ≠ 0) : f.buffer k =
    if f.conversion = .o ∧ f.has .alt then '0'.toUInt8 :: f.magnitudeText k else f.magnitudeText k := by
  have pos := f.magnitudeText_pos k notZero
  have some : (if f.prec = some 0 then 0 else 1) ≤ 1 := by split <;> decide
  rw [buffer, fewest]
  by_cases octal : f.conversion = .o ∧ f.has .alt
  · rw [if_pos octal, if_pos octal, Nat.max_eq_right (by omega), Nat.add_sub_cancel_left]
    rfl
  · rw [if_neg octal, if_neg octal, Nat.sub_eq_zero_of_le (by omega)]
    rfl

/-- The digits in the base that the format tells. -/
theorem digits_eq {sf : SFormat} {zero : Bool} (reads : Reads sf f zero) {prec : MSize}
    (isPrec : prec ≠ 0 ↔ f.prec ≠ some 0) :
    digits sf (f.unsigned k) prec (f.signWord k) = (f.buffer k, f.mark k) := by
  simp only [digits, reads.octal, reads.decimal, reads.hex, reads.upper, reads.alt, f.unsigned_eq_zero, isPrec, mark]
  by_cases isZero : k = 0
  · have noMark : ¬(f.conversion.base = 16 ∧ f.has .alt ∧ k ≠ 0) := fun all => all.2.2 isZero
    rw [if_pos isZero, if_neg noMark, f.buffer_zero k isZero]
    split <;> rfl
  · have unsigned : f.unsigned k ≠ 0 := fun zero => isZero ((f.unsigned_eq_zero k).mp zero)
    rw [if_neg isZero, f.buffer_some k isZero, decimalLoop_eq _ _ unsigned, hexLoop_eq _ _ _ unsigned,
      octLoop_eq _ _ unsigned, List.append_nil, List.append_nil, List.append_nil, toNat_unsigned, magnitudeText]
    have notZero : k ≠ 0#64 := isZero
    cases f.conversion <;> cases f.has .alt <;> simp [Conversion.base, Conversion.upper, notZero]

/-- The characters of `prefix` are the sign, and its length is above them. -/
theorem mark_chars : prefixChars (f.mark k) = f.sign k ∧ (f.mark k >>> 8).toNat = (f.sign k).length := by
  rw [mark, signWord, sign]
  by_cases hex : f.conversion.base = 16 ∧ f.has .alt ∧ k ≠ 0
  · have unsigned : f.conversion.isSigned ≠ true := by
      have isHex := hex.1
      revert isHex
      cases f.conversion <;> decide
    rw [if_pos hex, if_pos hex, if_neg unsigned]
    cases f.conversion.upper <;> decide
  · rw [if_neg hex, if_neg hex]
    split
    · split
      · decide
      · split
        · decide
        · split <;> decide
    · decide

end FormatSpec

section

variable {sf : SFormat} {f : FormatSpec}

/-- A buffer between its zeros, blanks and sign. -/
theorem layout_eq (reads : Reads sf f (f.has .zero && f.prec.isNone)) (k : BitVec 64) {prec pprec len width : MSize}
    (isPrec : prec.toNat = max (f.buffer k).length (f.prec.elim 0 Fin.val))
    (isLen : len.toNat = (f.buffer k).length) (isWidth : width.toNat = f.width)
    (isPprec : pprec.toNat = (f.sign k).length + (f.number k).length) :
    layout sf prec pprec len width (f.mark k) (f.buffer k) = f.printf k := by
  have number := f.number_eq k
  rw [← isPrec, ← isLen] at number
  simp only [layout, reads.blanks, reads.zeros, reads.left, FormatSpec.printf, ← isWidth, ← isPprec]
  have zeros : (f.has .zero && f.prec.isNone) = true ↔ f.has .zero = true ∧ f.prec = none := by
    rw [Bool.and_eq_true, Option.isNone_iff_eq_none]
  simp only [(f.mark_chars k).1, padLoop_fst, ← zeros]
  by_cases left : f.has .left
  · simp [left, number]
  · by_cases zero : f.has .zero && f.prec.isNone
    · have both (a b : Nat) (q : GCstr) : List.replicate a '0'.toUInt8 ++ (List.replicate b '0'.toUInt8 ++ q) =
          List.replicate (a + b) '0'.toUInt8 ++ q := by
        rw [← List.append_assoc, List.replicate_append_replicate]
      simp [left, zero, padLoop_fst, number, both]
    · simp [left, zero, padLoop_fst, number]

end

theorem length_printf (f : FormatSpec) (k : BitVec 64) :
    (f.printf k).length = max f.width.val ((f.sign k).length + (f.number k).length) := by
  rw [FormatSpec.printf]
  split
  · simp only [List.length_append, List.length_replicate]
    omega
  · split <;> simp only [List.length_append, List.length_replicate] <;> omega

/-- No precision is below every length. -/
theorem prec_max (f : FormatSpec) {len : MSize} (small : len.toNat < 2 ^ 31) :
    (if len.toInt ≥ (STRFMT_PREC f.sf).toInt then len else STRFMT_PREC f.sf).toNat =
      max len.toNat (f.prec.elim 0 Fin.val) := by
  have sign := prec_sign f
  have value := BitVec.toInt_eq_toNat_cond (STRFMT_PREC f.sf)
  have isLen : len.toInt = len.toNat := BitVec.toInt_eq_toNat_of_lt (by omega)
  cases isPrec : f.prec with
  | none =>
      rw [isPrec, Option.elim_none] at sign
      rw [if_pos (by omega), Option.elim_none, Nat.max_zero]
  | some prec =>
      rw [isPrec, Option.elim_some] at sign
      rw [Option.elim_some]
      split at value <;> split <;> omega

theorem prec_zero (f : FormatSpec) : STRFMT_PREC f.sf ≠ 0 ↔ f.prec ≠ some 0 := by
  have sign := prec_sign f
  have zero : STRFMT_PREC f.sf = 0 ↔ (STRFMT_PREC f.sf).toInt = 0 := BitVec.toInt_inj.symm
  rw [ne_eq, ne_eq, not_iff_not, zero, sign]
  cases f.prec with
  | none => exact iff_of_false nofun nofun
  | some prec =>
      rw [Option.elim_some, Option.some_inj, Fin.ext_iff]
      exact Int.natCast_eq_zero

theorem width_cleared (f : FormatSpec) :
    (STRFMT_WIDTH (if (STRFMT_PREC f.sf).toInt ≥ 0 then f.sf &&& ~~~STRFMT_F_ZERO else f.sf)).toNat = f.width := by
  have outside : ~~~STRFMT_F_ZERO >>> STRFMT_SH_WIDTH &&& 255 = 255 := by decide
  have cleared : STRFMT_WIDTH (f.sf &&& ~~~STRFMT_F_ZERO) = STRFMT_WIDTH f.sf := by
    rw [STRFMT_WIDTH, BitVec.ushiftRight_and_distrib, BitVec.and_assoc, outside, STRFMT_WIDTH]
  have value : (STRFMT_WIDTH f.sf).toNat = f.width := by
    rw [f.width_sf, BitVec.toNat_ofNat]
    omega
  split
  · rw [cleared, value]
  · exact value

/-- Every integer is written as `printf` specifies, in what was reserved for it. -/
theorem putfxint_eq (f : FormatSpec) (k : BitVec 64) :
    (lj_strfmt_putfxint f.sf k).2 = f.printf k ∧
      (lj_strfmt_putfxint f.sf k).1.toNat = (f.printf k).length := by
  have small := f.length_buffer k
  have isLen : (BitVec.ofNat 32 (f.buffer k).length).toNat = (f.buffer k).length := by
    rw [BitVec.toNat_ofNat]
    omega
  have isWidth := width_cleared f
  have length : (f.number k).length = max (f.buffer k).length (f.prec.elim 0 Fin.val) := by
    rw [f.number_eq, List.length_append, List.length_replicate]
    omega
  have isPrec := prec_max f (by omega : (BitVec.ofNat 32 (f.buffer k).length).toNat < 2 ^ 31)
  have bound : f.prec.elim 0 Fin.val < 100 := by
    cases f.prec with
    | none => decide
    | some prec => exact prec.isLt
  have mark : (f.sign k).length ≤ 2 := by
    rw [FormatSpec.sign]
    split
    · split
      · decide
      · split
        · decide
        · split <;> decide
    · split <;> simp
  have isMark := (f.mark_chars k).2
  rw [isLen, ← length] at isPrec
  rw [lj_strfmt_putfxint, f.signed_eq]
  dsimp only
  rw [f.digits_eq k (reads_cleared f) (prec_zero f)]
  dsimp only
  generalize (if (BitVec.ofNat 32 (f.buffer k).length).toInt ≥ (STRFMT_PREC f.sf).toInt then
    BitVec.ofNat 32 (f.buffer k).length else STRFMT_PREC f.sf) = prec at isPrec ⊢
  have isPprec : (prec + f.mark k >>> 8).toNat = (f.sign k).length + (f.number k).length := by
    rw [BitVec.toNat_add, isPrec, isMark]
    omega
  constructor
  · exact layout_eq (reads_cleared f) k (isPrec.trans length) isLen isWidth isPprec
  · generalize STRFMT_WIDTH (if (STRFMT_PREC f.sf).toInt ≥ 0 then f.sf &&& ~~~STRFMT_F_ZERO else f.sf) = width
      at isWidth ⊢
    generalize prec + f.mark k >>> 8 = pprec at isPprec ⊢
    rw [length_printf, ← isWidth, ← isPprec]
    split
    · next wide =>
        have isWide : pprec.toNat < width.toNat := wide
        omega
    · next narrow =>
        have isNarrow : ¬pprec.toNat < width.toNat := narrow
        omega

end TvmJit.Fmt
