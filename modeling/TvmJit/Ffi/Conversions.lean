import TvmJit.Ffi.Recorded

/-! The two tables of conversions between C number types compared. Both go by the integer or the
floating-point number that the source stands for. -/

namespace TvmJit

open Foundation

/-! ## Number types -/

theorem CTF_BOOL_eq : CTF_BOOL = BitVec.twoPow 32 27 := rfl

theorem CTF_FP_eq : CTF_FP = BitVec.twoPow 32 26 := rfl

theorem flag_eq (info : CTInfo) {i : Nat} (inside : i < 32) :
    (info &&& BitVec.twoPow 32 i != 0) = info.getLsbD i := by
  rw [BitVec.and_twoPow]
  cases info.getLsbD i with
  | false => simp
  | true =>
      have nonzero : BitVec.twoPow 32 i ≠ 0#32 := by
        intro zero
        have power := congrArg BitVec.toNat zero
        simp [BitVec.toNat_twoPow, Nat.mod_eq_of_lt (Nat.pow_lt_pow_right Nat.one_lt_two inside)] at power
      simp [nonzero]

/-- The bits that conversions dispatch on, for a number. -/
theorem dispatch_bits {info : CTInfo} (isnum : ctype_isnum info) :
    ((info >>> 26) &&& 15).toNat = (info.getLsbD 26).toNat + 2 * (info.getLsbD 27).toNat := by
  have type : info >>> 28 = 0#32 := of_decide_eq_true isnum
  have high : info.toNat / 2 ^ 28 = 0 := by
    have shifted := congrArg BitVec.toNat type
    rwa [BitVec.toNat_ushiftRight, Nat.shiftRight_eq_div_pow] at shifted
  have nibble : ((info >>> 26) &&& 15).toNat = info.toNat / 2 ^ 26 % 2 ^ 4 := by
    rw [BitVec.toNat_and, BitVec.toNat_ushiftRight, Nat.shiftRight_eq_div_pow]
    exact Nat.and_two_pow_sub_one_eq_mod _ 4
  have bit (i : Nat) : (info.getLsbD i).toNat = info.toNat / 2 ^ i % 2 := by
    rw [BitVec.getLsbD, Nat.testBit_eq_decide_div_mod_eq]
    rcases Nat.mod_two_eq_zero_or_one (info.toNat / 2 ^ i) with h | h <;> simp [h]
  rw [nibble, bit, bit]
  omega

namespace CNumber

variable (d : CNumber)

theorem not_both (fp : d.fp = true) : d.bool = false := by
  rcases d.plain with notBool | notFp
  · simp [bool, notBool]
  · simp [CNumber.fp, notFp] at fp

theorem cconv_idx_eq : cconv_idx d.info = if d.bool then CCX_B else if d.fp then CCX_F else CCX_I := by
  have isBool : d.bool = d.info.getLsbD 27 := flag_eq d.info (i := 27) (by decide)
  have isFp : d.fp = d.info.getLsbD 26 := flag_eq d.info (i := 26) (by decide)
  have exclusive := d.not_both
  rw [isBool, isFp] at exclusive
  rw [cconv_idx, dispatch_bits d.isnum, isBool, isFp]
  cases fp : d.info.getLsbD 26 with
  | true =>
      rw [exclusive fp]
      rfl
  | false => cases d.info.getLsbD 27 <;> rfl

theorem fp_size (fp : d.fp = true) : d.size = 4 ∨ d.size = 8 := by
  apply d.fpSize
  simpa [CNumber.fp] using fp

theorem bool_size (bool : d.bool = true) : d.size = 1 ∨ d.size = 4 := by
  apply d.boolSize
  simpa [CNumber.bool] using bool

end CNumber

/-! ## Types of instructions -/

/-- A type of instructions for the integers of a number type, booleans among them. -/
structure IRType.Holds (t : IRType) (d : CNumber) : Prop where
  size : t.size = d.size
  unsigned : t.isUnsigned = d.unsigned
  notFp : t.isFp = false
  wide : t.is64 = decide (d.size = 8)
  known : t ≠ .cdata

theorem crec_ct2irt_integer (d : CNumber) (integral : d.fp = false) : (crec_ct2irt d).Holds d := by
  have type : crec_ct2irt d = .ofFls d.size.log2 d.unsigned := by
    rw [crec_ct2irt, integral]
    rcases d.sized with size | size | size | size <;> rw [size] <;> rfl
  rw [type]
  rcases d.sized with size | size | size | size <;> cases unsigned : d.unsigned <;>
    exact ⟨by rw [size]; rfl, by rw [size, unsigned]; rfl, by rw [size]; rfl, by rw [size]; rfl,
      by rw [size]; decide⟩

theorem crec_ct2irt_fp (d : CNumber) (fp : d.fp = true) :
    crec_ct2irt d = if d.size = 8 then .num else .float := by
  rw [crec_ct2irt, if_pos fp]
  rcases d.fp_size fp with size | size <;> rw [size] <;> rfl

/-! ## Integers in registers and in memory -/

/-- An integer that differs from a word by a multiple of what is stored. -/
theorem ofInteger_eq {n w : Nat} {i : Int} (same : i % 256 ^ n = w % 256 ^ n) :
    ofInteger n i = ofWord n w := by
  apply ofWord_congr
  have pos : (0 : Int) < 256 ^ n := Int.pow_pos (by decide)
  have nonneg := Int.emod_nonneg i pos.ne'
  apply Int.ofNat_inj.mp
  rw [Int.natCast_emod, Int.natCast_emod, Int.toNat_of_nonneg nonneg, Int.natCast_pow]
  exact (Int.emod_emod_of_dvd _ (dvd_refl _)).trans same

theorem ofWord_register {n bits : Nat} (i : Int) (fits : 8 * n ≤ bits) :
    ofWord n (register bits i) = ofInteger n i := by
  symm
  apply ofInteger_eq
  have pos : (0 : Int) < 2 ^ bits := Int.pow_pos (by decide)
  have divides : (256 : Int) ^ n ∣ 2 ^ bits := by
    rw [show (256 : Int) = 2 ^ 8 by rfl, ← Int.pow_mul]
    exact pow_dvd_pow 2 fits
  rw [register, Int.toNat_of_nonneg (Int.emod_nonneg i pos.ne'), Int.emod_emod_of_dvd i divides]

theorem InRange.bmod {bits : Nat} {i : Int} (pos : 0 < bits) (range : InRange false bits i) :
    i.bmod (2 ^ bits) = i := by
  obtain ⟨low, high⟩ := range
  have power : (2 : Int) ^ bits = 2 * 2 ^ (bits - 1) := by
    rw [← Int.pow_succ', Nat.sub_add_cancel pos]
  apply Int.bmod_eq_of_le_mul_two <;> push_cast <;> omega

/-- A register keeps the integers of its type. -/
theorem registerInt_register {t : IRType} {bits : Nat} {i : Int} (fits : 8 * t.size ≤ bits)
    (range : InRange t.isUnsigned (8 * t.size) i) : registerInt t (register bits i) = i := by
  have pos : (0 : Int) < 2 ^ bits := Int.pow_pos (by decide)
  have divides : (2 : Int) ^ (8 * t.size) ∣ 2 ^ bits := pow_dvd_pow 2 fits
  have word : (register bits i : Int) % 2 ^ (8 * t.size) = i % 2 ^ (8 * t.size) := by
    rw [register, Int.toNat_of_nonneg (Int.emod_nonneg i pos.ne'), Int.emod_emod_of_dvd i divides]
  cases unsigned : t.isUnsigned with
  | true =>
      rw [unsigned] at range
      rw [registerInt, unsigned, if_pos rfl, word]
      exact Int.emod_eq_of_lt range.1 range.2
  | false =>
      rw [unsigned] at range
      have sized : 0 < 8 * t.size := by cases t <;> decide
      have power : ((2 ^ (8 * t.size) : Nat) : Int) = 2 ^ (8 * t.size) := Int.natCast_pow 2 _
      rw [registerInt, unsigned, if_neg (by decide), ← Int.emod_bmod, power, word, ← power,
        Int.emod_bmod]
      exact InRange.bmod sized range

theorem integer_inRange (unsigned : Bool) {bytes : List UInt8} (some : 0 < bytes.length) :
    InRange unsigned (8 * bytes.length) (integer unsigned bytes) := by
  have small := word_lt bytes
  have power : (256 : Int) ^ bytes.length = 2 ^ (8 * bytes.length) := by
    rw [Int.pow_mul]
    rfl
  have half : (2 : Int) ^ (8 * bytes.length) = 2 * 2 ^ (8 * bytes.length - 1) := by
    rw [← Int.pow_succ', Nat.sub_add_cancel (by omega)]
  have small' : (word bytes : Int) < 256 ^ bytes.length := by exact_mod_cast small
  cases unsigned with
  | true =>
      refine ⟨Int.natCast_nonneg _, ?_⟩
      rw [← power]
      exact small'
  | false =>
      simp only [InRange, integer, signedWord, Bool.false_eq_true, if_false]
      split
      · have low : 2 * (word bytes : Int) < 256 ^ bytes.length := by assumption_mod_cast
        omega
      · have high : ¬ 2 * (word bytes : Int) < 256 ^ bytes.length := by assumption_mod_cast
        omega

theorem InRange.widen {unsigned : Bool} {bits bits' : Nat} {i : Int} (range : InRange unsigned bits i)
    (wider : bits < bits') : InRange false bits' i := by
  have power : (2 : Int) ^ bits ≤ 2 ^ (bits' - 1) := by
    exact_mod_cast Nat.pow_le_pow_right Nat.two_pos (by omega)
  have less : (2 : Int) ^ (bits - 1) ≤ 2 ^ (bits' - 1) := by
    exact_mod_cast Nat.pow_le_pow_right Nat.two_pos (by omega)
  cases unsigned with
  | true =>
      obtain ⟨low, high⟩ := range
      exact ⟨by omega, by omega⟩
  | false =>
      obtain ⟨low, high⟩ := range
      exact ⟨by omega, by omega⟩

theorem InRange.mono {unsigned : Bool} {bits bits' : Nat} {i : Int} (range : InRange unsigned bits i)
    (wider : bits ≤ bits') : InRange unsigned bits' i := by
  have power : (2 : Int) ^ bits ≤ 2 ^ bits' := by
    exact_mod_cast Nat.pow_le_pow_right Nat.two_pos wider
  have half : (2 : Int) ^ (bits - 1) ≤ 2 ^ (bits' - 1) := by
    exact_mod_cast Nat.pow_le_pow_right Nat.two_pos (by omega)
  cases unsigned with
  | true =>
      obtain ⟨low, high⟩ := range
      exact ⟨low, by omega⟩
  | false =>
      obtain ⟨low, high⟩ := range
      exact ⟨by omega, by omega⟩

theorem bmod_register {i : Int} (range : InRange false 32 i) :
    (register 32 i : Int).bmod (2 ^ 32) = i := by
  have held := @registerInt_register .int 32 i (by decide) range
  simpa [registerInt, IRType.isUnsigned, IRType.size] using held

/-! ## Integers from integers -/

theorem sign_byte (b : UInt8) : (b &&& 0x80 != 0) = decide (128 ≤ b.toNat) := by
  have table : ∀ n : Fin 256,
      (UInt8.ofNat n &&& 0x80 != 0) = decide (128 ≤ (UInt8.ofNat n).toNat) := by decide +kernel
  simpa using table ⟨b.toNat, b.toNat_lt⟩

/-- Bytes with copies of the sign behind them. -/
theorem append_fill {bytes : List UInt8} (k : Nat) {fill : UInt8} {i : Int}
    (sign : fill = 0 ∧ i = word bytes ∨ fill = 0xff ∧ i = word bytes - 256 ^ bytes.length) :
    bytes ++ List.replicate k fill = ofInteger (bytes.length + k) i := by
  have filled := word_replicate k fill
  have total := word_append bytes (List.replicate k fill)
  have pos : 0 < 256 ^ k := Nat.pow_pos (by decide)
  have small := word_lt (bytes ++ List.replicate k fill)
  rw [List.length_append, List.length_replicate] at small
  rw [ofInteger_eq (w := word (bytes ++ List.replicate k fill))]
  · apply eq_ofWord
    · rw [List.length_append, List.length_replicate]
    · rw [Nat.mod_eq_of_lt small]
  · rcases sign with ⟨rfl, rfl⟩ | ⟨rfl, rfl⟩
    · have none : word (List.replicate k 0) = 0 := by simpa using filled
      rw [total, none, Nat.mul_zero, Nat.add_zero]
    · have ones : word (List.replicate k 0xff) = 256 ^ k - 1 :=
        Nat.eq_of_mul_eq_mul_left (by decide : 0 < 255) filled
      have more : (word (bytes ++ List.replicate k 0xff) : Int) =
          word bytes - 256 ^ bytes.length + 256 ^ (bytes.length + k) := by
        rw [total, ones]
        push_cast [Nat.cast_sub pos]
        ring
      rw [more, Int.add_emod_right]

/-- The lowest bytes of an integer. -/
theorem take_integer {bytes : List UInt8} {n : Nat} (unsigned : Bool) (less : n ≤ bytes.length) :
    bytes.take n = ofInteger n (integer unsigned bytes) := by
  rw [take_eq_ofWord less, ofInteger_eq (w := word bytes)]
  have divides : (256 : Int) ^ n ∣ 256 ^ bytes.length := pow_dvd_pow 256 less
  have signed : signedWord bytes % 256 ^ n = word bytes % 256 ^ n := by
    rw [signedWord]
    split
    · rfl
    · exact (Int.emod_emod_of_dvd _ divides).symm.trans (by
        rw [Int.sub_emod_right, Int.emod_emod_of_dvd _ divides])
  cases unsigned with
  | true => rfl
  | false => exact signed

/-- The interpreter stores the integer of the source. -/
theorem conv_I_I_eq (d s : CNumber) {sp : List UInt8} (length : sp.length = s.size) :
    conv_I_I d s sp = ofInteger d.size (integer s.unsigned sp) := by
  rw [conv_I_I]
  split
  · rename_i longer
    obtain ⟨last, isLast⟩ : ∃ last, sp.getLast? = some last := by
      apply Option.isSome_iff_exists.mp
      rw [List.getLast?_isSome]
      rintro rfl
      have := s.sized
      rw [List.length_nil] at length
      omega
    have size : d.size = sp.length + (d.size - s.size) := by omega
    have lastByte : sp.getLastD 0 = last := by rw [List.getLastD_eq_getLast?, isLast]; rfl
    have negative := signedWord_neg_iff isLast
    rw [lastByte, sign_byte]
    conv_rhs => rw [size]
    apply append_fill
    cases s.unsigned with
    | true => exact Or.inl ⟨rfl, rfl⟩
    | false =>
        by_cases sign : 128 ≤ last.toNat
        · right
          have large := negative.mpr sign
          refine ⟨by simp [sign], ?_⟩
          simp only [integer, signedWord]
          rw [if_neg (by decide), if_neg (by omega)]
        · left
          have little := mt negative.mp sign
          refine ⟨by simp [sign], ?_⟩
          simp only [integer, signedWord]
          rw [if_neg (by decide), if_pos (by omega)]
  · exact take_integer s.unsigned (by omega)

/-! ## Operands -/

namespace TRef

/-- Without its checks for overflow an operand has the value that it had with them. -/
theorem eval_narrow {run : TraceRun} {tr : TRef} {v : Nat} (value : tr.eval run = some v) :
    tr.narrow_stripov.eval run = some v := by
  induction tr generalizing v with
  | arith o ov a b ihA ihB =>
      cases ov with
      | false => exact value
      | true =>
          simp only [eval, Option.bind_eq_bind, Option.bind_eq_some_iff] at value
          obtain ⟨va, left, vb, right, result⟩ := value
          simp only [narrow_stripov, eval, ihA left, ihB right, Option.bind_eq_bind, Option.bind_some,
            Bool.false_and, Bool.false_eq_true, if_false]
          split at result
          · cases result
          · exact result
  | kint => exact value
  | xload => exact value
  | other => exact value
  | conv => exact value

end TRef

/-- The integer of a value. -/
def CValue.integer {s : CNumber} (v : CValue s) : Int := Foundation.integer s.unsigned v.bytes

section

variable {LJ_64 : Bool} {d s : CNumber} (v : CValue s) {run : TraceRun} {sp : TRef} {svisnz : Svisnz}

/-- An operand that holds the source: its value, as an `XLOAD` has it. -/
def HoldsSource (run : TraceRun) (sp : TRef) (v : CValue s) : Prop :=
  sp.eval run = some (xloadValue (crec_ct2irt s) v.bytes)

/-- A conversion on a trace whose run stores some bytes. -/
def TraceStores (LJ_64 : Bool) (d s : CNumber) (sp : TRef) (svisnz : Svisnz) (run : TraceRun)
    (out : List UInt8) : Prop :=
  ∃ recorded, crec_ct_ct d s LJ_64 sp svisnz = some recorded ∧ recorded.run run = some out

theorem run_unguarded (dt : IRType) :
    ({ dt := dt, sp := sp } : Recorded).run run = (sp.eval run).map (xstoreBytes dt) := by
  rw [Recorded.run]
  cases sp.eval run <;> rfl

theorem CValue.integer_inRange : InRange s.unsigned (8 * s.size) v.integer := by
  have range := TvmJit.integer_inRange s.unsigned (show 0 < v.bytes.length by
    rw [v.length]
    have := s.sized
    omega)
  rwa [v.length] at range

theorem register_nonneg {bits : Nat} {i : Int} (low : 0 ≤ i) (high : i < 2 ^ bits) :
    register bits i = i.toNat := by
  rw [register, Int.emod_eq_of_lt low high]

theorem register_lt (bits : Nat) (i : Int) : register bits i < 2 ^ bits := by
  have pos : (0 : Int) < 2 ^ bits := Int.pow_pos (by decide)
  have high := Int.emod_lt_of_pos i pos
  apply Int.ofNat_lt.mp
  rw [register, Int.toNat_of_nonneg (Int.emod_nonneg i pos.ne')]
  exact_mod_cast high

/-- The upper half of a register is zero under an unsigned integer. -/
theorem register_widen {i : Int} (range : InRange true 32 i) : register 32 i = register 64 i := by
  obtain ⟨low, high⟩ := range
  rw [register_nonneg low high, register_nonneg low (high.trans (by decide))]

/-- The register of a source that is an integer. -/
theorem holds_integer (integral : s.fp = false) (holds : HoldsSource run sp v) :
    sp.eval run = some (register (if s.size = 8 then 64 else 32) v.integer) := by
  obtain ⟨-, unsigned, notFp, wide, -⟩ := crec_ct2irt_integer s integral
  rw [holds, xloadValue, notFp, unsigned, IRType.bits, wide]
  simp only [decide_eq_true_eq]
  rfl

/-- The operand that is stored when an integer is converted to an integer. -/
def integerOperand (LJ_64 : Bool) (d s : CNumber) (sp : TRef) : TRef :=
  let dt := crec_ct2irt d
  let st := crec_ct2irt s
  if d.size = 8 ∧ s.size < 8 ∧ !(LJ_64 && s.unsigned) then
    .conv sp dt (if s.size < 4 then .int else st) (!s.unsigned) false
  else if d.size < 8 ∧ s.size = 8 then .conv sp (if d.size < 4 then .int else dt) st false false
  else if st = .int then sp.lj_opt_narrow_toint
  else sp

theorem row_I (notBool : d.bool = false) (notFp : d.fp = false) : cconv_idx d.info = CCX_I := by
  rw [d.cconv_idx_eq, notBool, notFp]
  rfl

theorem column_integral (integral : s.fp = false) :
    cconv_idx s.info = CCX_B ∨ cconv_idx s.info = CCX_I := by
  rw [s.cconv_idx_eq, integral]
  cases s.bool
  · exact Or.inr rfl
  · exact Or.inl rfl

theorem crec_I_I (notBool : d.bool = false) (toInt : d.fp = false) (integral : s.fp = false) :
    crec_ct_ct d s LJ_64 sp svisnz =
      some { dt := crec_ct2irt d, sp := integerOperand LJ_64 d s sp } := by
  have dKnown := (crec_ct2irt_integer d toInt).known
  have sKnown := (crec_ct2irt_integer s integral).known
  have notB : CCX_I ≠ CCX_B := by decide
  simp only [crec_ct_ct, row_I notBool toInt, if_neg notB, if_true, dKnown, sKnown, or_self, if_false,
    if_pos (column_integral integral), integerOperand]
  split
  · rfl
  · split
    · rfl
    · split <;> rfl

/-- The operand stored carries the integer of the source, as far as it is stored. -/
theorem eval_integerOperand (toInt : d.fp = false) (integral : s.fp = false)
    (holds : HoldsSource run sp v) :
    ∃ n, (integerOperand LJ_64 d s sp).eval run = some n ∧ ofWord d.size n = ofInteger d.size v.integer := by
  have value := holds_integer v integral holds
  have range := v.integer_inRange
  have destination := crec_ct2irt_integer d toInt
  have source := crec_ct2irt_integer s integral
  have sizes := s.sized
  have sizes' := d.sized
  rw [integerOperand]
  split
  · rename_i extends_
    obtain ⟨eight, short, -⟩ := extends_
    rw [if_neg (by omega)] at value
    have wide : (crec_ct2irt d).is64 = true := by rw [destination.wide, eight]; rfl
    have narrow : (if s.size < 4 then IRType.int else crec_ct2irt s).is64 = false := by
      split
      · rfl
      · rw [source.wide]
        exact decide_eq_false (by omega)
    have notFp : (if s.size < 4 then IRType.int else crec_ct2irt s).isFp = false := by
      split
      · rfl
      · exact source.notFp
    refine ⟨_, by rw [TRef.eval, value]; rfl, ?_⟩
    rw [convValue, destination.notFp, notFp, wide, narrow]
    simp only [Bool.false_eq_true, if_false, Bool.not_false, Bool.and_self, if_true]
    rw [eight]
    cases unsigned : s.unsigned with
    | false =>
        rw [unsigned] at range
        simp only [Bool.not_false, if_true]
        rw [bmod_register (range.mono (by omega))]
        exact ofWord_register _ (by decide)
    | true =>
        rw [unsigned] at range
        have bounds : InRange true 32 v.integer := range.mono (by omega)
        simp only [Bool.not_true, Bool.false_eq_true, if_false]
        rw [Nat.mod_eq_of_lt (register_lt 32 _), register_widen bounds]
        exact ofWord_register _ (by decide)
  · rename_i notExtends
    split
    · rename_i truncates
      obtain ⟨small, eight⟩ := truncates
      rw [if_pos eight] at value
      have notFp : (if d.size < 4 then IRType.int else crec_ct2irt d).isFp = false := by
        split
        · rfl
        · exact destination.notFp
      have narrow : (if d.size < 4 then IRType.int else crec_ct2irt d).is64 = false := by
        split
        · rfl
        · rw [destination.wide]
          exact decide_eq_false (by omega)
      refine ⟨_, by rw [TRef.eval, value]; rfl, ?_⟩
      rw [convValue, notFp, source.notFp, narrow, IRType.bits, narrow, registerInt_register]
      · simp only [Bool.false_eq_true, if_false, Bool.false_and]
        exact ofWord_register _ (by omega)
      · rw [source.size]
        omega
      · rw [source.size, source.unsigned]
        exact range
    · rename_i notTruncates
      have same : ∃ n, (if crec_ct2irt s = .int then sp.lj_opt_narrow_toint else sp).eval run = some n ∧
          n = register (if s.size = 8 then 64 else 32) v.integer := by
        split
        · exact ⟨_, TRef.eval_narrow value, rfl⟩
        · exact ⟨_, value, rfl⟩
      obtain ⟨n, result, rfl⟩ := same
      refine ⟨_, result, ?_⟩
      rcases Nat.lt_or_ge s.size 8 with short | long
      · rw [if_neg (by omega)]
        rcases Nat.lt_or_ge d.size 8 with short' | long'
        · exact ofWord_register _ (by omega)
        · have implicit : s.unsigned = true := by
            by_contra signed
            apply notExtends
            refine ⟨by omega, short, ?_⟩
            rw [Bool.not_eq_true] at signed
            rw [signed, Bool.and_false]
            rfl
          rw [implicit] at range
          rw [register_widen (range.mono (by omega))]
          exact ofWord_register _ (by omega)
      · rw [if_pos (by omega)]
        exact ofWord_register _ (by omega)

/-- Integers and booleans to integers: both tables store the integer of the source. -/
theorem stores_I_I (notBool : d.bool = false) (toInt : d.fp = false) (integral : s.fp = false)
    (holds : HoldsSource run sp v) :
    TraceStores LJ_64 d s sp svisnz run (ofInteger d.size v.integer) := by
  have operand : ∃ n, (integerOperand LJ_64 d s sp).eval run = some n ∧
      ofWord d.size n = ofInteger d.size v.integer := eval_integerOperand v toInt integral holds
  obtain ⟨n, value, stored⟩ := operand
  refine ⟨_, crec_I_I notBool toInt integral, ?_⟩
  rw [run_unguarded, value, Option.map_some, xstoreBytes, (crec_ct2irt_integer d toInt).size, stored]

theorem cconv_I_I (notBool : d.bool = false) (toInt : d.fp = false) (integral : s.fp = false) :
    lj_cconv_ct_ct d s v.bytes = some (ofInteger d.size v.integer) := by
  have notB : CCX_I ≠ CCX_B := by decide
  simp only [lj_cconv_ct_ct, row_I notBool toInt, if_neg notB, if_true,
    if_pos (column_integral integral), conv_I_I_eq d s v.length]
  rfl

/-! ## Floating-point numbers -/

/-- The number of a value of a floating-point type. -/
def CValue.datum {s : CNumber} (v : CValue s) : Datum := s.format.decode (word v.bytes)

theorem crec_ct2irt_format (fp : d.fp = true) :
    (crec_ct2irt d).isFp = true ∧ (crec_ct2irt d).format = d.format ∧ (crec_ct2irt d).size = d.size ∧
      crec_ct2irt d ≠ .cdata := by
  rw [crec_ct2irt_fp d fp, CNumber.format]
  rcases d.fp_size fp with size | size <;> rw [size] <;> exact ⟨rfl, rfl, rfl, by decide⟩

theorem row_F (fp : d.fp = true) : cconv_idx d.info = CCX_F := by
  rw [d.cconv_idx_eq, d.not_both fp, fp]
  rfl

theorem holds_fp (fp : s.fp = true) (holds : HoldsSource run sp v) :
    sp.eval run = some (word v.bytes) := by
  rw [holds, xloadValue, (crec_ct2irt_format fp).1]
  rfl

/-- Integers and booleans to floating-point numbers: the trace rounds the integer once. -/
theorem stores_F_I (toFp : d.fp = true) (integral : s.fp = false) (holds : HoldsSource run sp v) :
    TraceStores LJ_64 d s sp svisnz run (ofWord d.size (d.format.ofInt v.integer)) := by
  have value := holds_integer v integral holds
  have range := v.integer_inRange
  have source := crec_ct2irt_integer s integral
  obtain ⟨dFp, dFormat, dSize, dKnown⟩ := crec_ct2irt_format toFp
  have sizes := s.sized
  have notB : CCX_F ≠ CCX_B := by decide
  have notI : CCX_F ≠ CCX_I := by decide
  have recorded : crec_ct_ct d s LJ_64 sp svisnz = some
      { dt := crec_ct2irt d
        sp := .conv sp (crec_ct2irt d) (if s.size < 4 then .int else crec_ct2irt s) false false } := by
    simp only [crec_ct_ct, row_F toFp, if_neg notB, if_neg notI, dKnown, source.known, or_self,
      if_false, if_pos (column_integral integral)]
  have notFp : (if s.size < 4 then IRType.int else crec_ct2irt s).isFp = false := by
    split
    · rfl
    · exact source.notFp
  have kept : registerInt (if s.size < 4 then IRType.int else crec_ct2irt s)
      (register (if s.size = 8 then 64 else 32) v.integer) = v.integer := by
    apply registerInt_register
    · split
      · rw [if_neg (by omega)]
        decide
      · rw [source.size]
        split <;> omega
    · split
      · exact range.widen (by rw [IRType.size]; omega)
      · rw [source.size, source.unsigned]
        exact range
  refine ⟨_, recorded, ?_⟩
  rw [run_unguarded, TRef.eval, value]
  simp only [Option.bind_eq_bind, Option.bind_some, Option.pure_def, Option.map_some, xstoreBytes, convValue]
  rw [dFp, notFp, kept, dFormat, dSize]
  rfl

/-- The interpreter rounds the integer to a double first. -/
theorem cconv_F_I (toFp : d.fp = true) (integral : s.fp = false) :
    lj_cconv_ct_ct d s v.bytes = some (if d.size = 8 then ofWord 8 (binary64.ofInt v.integer)
      else ofWord 4 (binary32.convert binary64 (binary64.ofInt v.integer))) := by
  have notB : CCX_F ≠ CCX_B := by decide
  have notI : CCX_F ≠ CCX_I := by decide
  have double : conv_F_I s v.bytes = some (binary64.ofInt v.integer) := by
    rw [CValue.integer, Foundation.integer]
    rcases s.sized with size | size | size | size <;> cases unsigned : s.unsigned <;>
      simp [conv_F_I, size, unsigned]
  simp only [lj_cconv_ct_ct, row_F toFp, if_neg notB, if_neg notI,
    if_pos (column_integral integral), double, Option.bind_eq_bind, Option.bind_some, storeDouble]
  rcases d.fp_size toFp with size | size <;> rw [size] <;> rfl

/-- The number of the source as a double. -/
theorem source_double (fp : s.fp = true) {i : Int} (value : v.datum.toInt = some i) :
    ∃ n, sourceDouble s.size v.bytes = some n ∧ (binary64.decode n).toInt = some i := by
  rw [CValue.datum, CNumber.format] at value
  rcases s.fp_size fp with size | size
  · rw [if_neg (by omega)] at value
    refine ⟨_, by rw [sourceDouble, if_neg (by omega), if_pos size], ?_⟩
    cases number : binary32.decode (word v.bytes) with
    | nan => rw [number] at value; cases value
    | infinite => rw [number] at value; cases value
    | finite negative m e =>
        obtain ⟨m', e', wide, same⟩ :=
          binary64.convert_covers binary32 (by decide) (by decide) (by decide) number
        rw [wide, ← value, number, Datum.toInt, Datum.toInt, same.floor_eq]
  · rw [if_pos size] at value
    exact ⟨_, by rw [sourceDouble, if_pos size], value⟩

end

/-! ## Integers from floating-point numbers -/

/-- The type of the cast that makes an integer: nothing below `int32_t`. -/
def CNumber.castUnsigned (d : CNumber) : Bool := decide (4 ≤ d.size) && d.unsigned

def CNumber.castBits (d : CNumber) : Nat := if d.size = 8 then 64 else 32

section

variable {LJ_64 : Bool} {d s : CNumber} (v : CValue s) {run : TraceRun} {sp : TRef} {svisnz : Svisnz}

theorem castInt_eq {unsigned : Bool} {bits n : Nat} {i : Int}
    (value : (binary64.decode n).toInt = some i) (range : InRange unsigned bits i) :
    castInt unsigned bits n = some i := by
  simp only [castInt, value, Option.bind_eq_bind, Option.bind_some, if_pos range]

theorem cconv_I_F (notBool : d.bool = false) (toInt : d.fp = false) (fp : s.fp = true) {i : Int}
    (value : v.datum.toInt = some i) (range : InRange d.castUnsigned d.castBits i) :
    lj_cconv_ct_ct d s v.bytes = some (ofInteger d.size i) := by
  have notB : CCX_I ≠ CCX_B := by decide
  have notColumn : ¬(CCX_F = CCX_B ∨ CCX_F = CCX_I) := by decide
  obtain ⟨n, double, number⟩ := source_double v fp value
  have cast (unsigned : Bool) (bits : Nat) (same : d.castUnsigned = unsigned) (same' : d.castBits = bits) :
      castInt unsigned bits n = some i := by
    rw [same, same'] at range
    exact castInt_eq number range
  have stored : conv_I_F d n = some (ofInteger d.size i) := by
    rcases d.sized with size | size | size | size <;> cases unsigned : d.unsigned <;>
      simp [conv_I_F, size, unsigned, cast false 32, cast true 32, cast false 64, cast true 64,
        CNumber.castUnsigned, CNumber.castBits]
  simp only [lj_cconv_ct_ct, row_I notBool toInt, row_F fp, if_neg notB, if_true, if_neg notColumn,
    double, Option.bind_eq_bind, Option.bind_some, stored]

theorem stores_I_F (notBool : d.bool = false) (toInt : d.fp = false) (fp : s.fp = true) {i : Int}
    (value : v.datum.toInt = some i) (holds : HoldsSource run sp v) :
    TraceStores LJ_64 d s sp svisnz run (ofInteger d.size i) := by
  have notB : CCX_I ≠ CCX_B := by decide
  have notColumn : ¬(CCX_F = CCX_B ∨ CCX_F = CCX_I) := by decide
  have destination := crec_ct2irt_integer d toInt
  obtain ⟨sFp, sFormat, -, sKnown⟩ := crec_ct2irt_format fp
  have sizes := d.sized
  have recorded : crec_ct_ct d s LJ_64 sp svisnz = some
      { dt := crec_ct2irt d
        sp := .conv sp (if d.size < 4 then .int else crec_ct2irt d) (crec_ct2irt s) false true } := by
    simp only [crec_ct_ct, row_I notBool toInt, row_F fp, if_neg notB, if_true, if_neg notColumn,
      destination.known, sKnown, or_self, if_false]
  have notFp : (if d.size < 4 then IRType.int else crec_ct2irt d).isFp = false := by
    split
    · rfl
    · exact destination.notFp
  have wide : 8 * d.size ≤ (if d.size < 4 then IRType.int else crec_ct2irt d).bits := by
    rw [IRType.bits]
    split
    · show 8 * d.size ≤ 32
      omega
    · rw [destination.wide]
      simp only [decide_eq_true_eq]
      split <;> omega
  refine ⟨_, recorded, ?_⟩
  rw [run_unguarded, TRef.eval, holds_fp v fp holds]
  simp only [Option.bind_eq_bind, Option.bind_some, Option.pure_def, Option.map_some, xstoreBytes, convValue]
  rw [notFp, sFp, sFormat, destination.size, ← CValue.datum, value]
  simp only [Bool.false_eq_true, if_false, if_true, Option.getD_some]
  rw [ofWord_register i wide]

/-! ## Floating-point numbers from floating-point numbers -/

theorem take_all (bytes : List UInt8) {n : Nat} (length : bytes.length = n) :
    bytes.take n = ofWord n (word bytes) := take_eq_ofWord length.ge

/-- Between floating-point types both tables do the same. -/
theorem F_F (toFp : d.fp = true) (fp : s.fp = true) (holds : HoldsSource run sp v) :
    ∃ out, lj_cconv_ct_ct d s v.bytes = some out ∧ TraceStores LJ_64 d s sp svisnz run out := by
  have notB : CCX_F ≠ CCX_B := by decide
  have notI : CCX_F ≠ CCX_I := by decide
  have notColumn : ¬(CCX_F = CCX_B ∨ CCX_F = CCX_I) := by decide
  have value := holds_fp v fp holds
  have all := take_all v.bytes v.length
  have stored {recorded : Recorded} {out : List UInt8}
      (same : crec_ct_ct d s LJ_64 sp svisnz = some recorded) (done : recorded.run run = some out) :
      TraceStores LJ_64 d s sp svisnz run out := ⟨recorded, same, done⟩
  rcases d.fp_size toFp with size | size <;> rcases s.fp_size fp with size' | size' <;>
    simp only [lj_cconv_ct_ct, row_F toFp, row_F fp, if_neg notB, if_neg notI, if_neg notColumn,
      sourceDouble, storeDouble, size, size'] at all ⊢ <;>
    refine ⟨_, rfl, stored (by
      simp only [crec_ct_ct, row_F toFp, row_F fp, if_neg notB, if_neg notI, if_neg notColumn,
        crec_ct2irt_fp d toFp, crec_ct2irt_fp s fp, size, size']
      rfl) ?_⟩ <;>
    rw [run_unguarded]
  · rw [value, all]
    rfl
  · rw [TRef.eval, value]
    rfl
  · rw [TRef.eval, value]
    rfl
  · rw [value, all]
    rfl

/-! ## Booleans -/

theorem storeBool_eq (toBool : d.bool = true) (b : UInt8) :
    storeBool d.size b = ofInteger d.size b.toNat := by
  rcases d.bool_size toBool with size | size
  · have small := b.toNat_lt
    rw [storeBool, if_pos size, size, ofInteger_eq (w := b.toNat) rfl, ofWord, ofWord]
    simp
  · rw [storeBool, if_neg (by omega), size]

theorem foldl_or (bytes : List UInt8) (b : UInt8) :
    bytes.foldl (· ||| ·) b = 0 ↔ b = 0 ∧ word bytes = 0 := by
  induction bytes generalizing b with
  | nil => simp [word]
  | cons byte bytes hypothesis =>
      have zero : byte = 0 ↔ byte.toNat = 0 := UInt8.toNat_inj.symm
      have sum : byte.toNat + 256 * word bytes = 0 ↔ byte.toNat = 0 ∧ word bytes = 0 := by omega
      rw [List.foldl_cons, hypothesis, word, UInt8.or_eq_zero_iff, zero, sum, and_assoc]

/-- Whether the number of a value is not zero. -/
def CValue.nonzero {s : CNumber} (v : CValue s) : Bool :=
  if s.fp then !v.datum.isZero else word v.bytes != 0

/-- `svisnz` tells whether the value seen by the recorder is not zero. -/
def Svisnz.Tells (svisnz : Svisnz) (seen : CValue s) : Prop :=
  match svisnz with
  | zero => seen.nonzero = false
  | one => seen.nonzero = true
  | pointer bytes => bytes = seen.bytes

theorem isnonzero_eq {seen : CValue s} (tells : svisnz.Tells seen) :
    crec_isnonzero s svisnz = seen.nonzero := by
  cases svisnz with
  | zero => exact tells.symm
  | one => exact tells.symm
  | pointer bytes =>
      rw [show bytes = seen.bytes from tells, crec_isnonzero, CValue.nonzero, CValue.datum, CNumber.format]
      have all {n : Nat} (size : s.size = n) : seen.bytes.take n = seen.bytes :=
        List.take_of_length_le (by rw [seen.length, size])
      by_cases fp : s.fp = true
      · rcases s.fp_size fp with size | size <;> simp [fp, size]
      · rcases s.sized with size | size | size | size <;> simp [fp, size, all size]

theorem row_B (toBool : d.bool = true) : cconv_idx d.info = CCX_B := by
  rw [d.cconv_idx_eq, toBool]
  rfl

theorem CValue.integer_eq_zero : v.integer = 0 ↔ word v.bytes = 0 := by
  have small := word_lt v.bytes
  have small' : (word v.bytes : Int) < 256 ^ v.bytes.length := by exact_mod_cast small
  have pos : 0 < 256 ^ v.bytes.length := Nat.pow_pos (by decide)
  rw [CValue.integer, Foundation.integer, signedWord]
  split
  · exact Int.natCast_eq_zero
  · split
    · exact Int.natCast_eq_zero
    · constructor
      · intro zero
        omega
      · intro zero
        omega

/-- A boolean is zero or one. -/
theorem CValue.integer_bool (fromBool : s.bool = true) : v.integer = word v.bytes := by
  have few := v.normalized fromBool
  have many : 256 ≤ 256 ^ v.bytes.length := by
    apply Nat.le_self_pow
    rw [v.length]
    have := s.sized
    omega
  rw [CValue.integer, Foundation.integer, signedWord]
  split
  · rfl
  · rw [if_pos (by omega)]

theorem CNumber.bool_integral (fromBool : s.bool = true) : s.fp = false := by
  by_contra fp
  rw [Bool.not_eq_false] at fp
  rw [s.not_both fp] at fromBool
  cases fromBool

theorem CNumber.bool_fits (toBool : d.bool = true) (bits : Nat) (wide : 32 ≤ bits) : 8 * d.size ≤ bits := by
  have := d.bool_size toBool
  omega

theorem cconv_B_B (toBool : d.bool = true) (fromBool : s.bool = true) :
    lj_cconv_ct_ct d s v.bytes = some (ofInteger d.size v.integer) := by
  have few := v.normalized fromBool
  have first : ((v.bytes.headD 0).toNat : Int) = v.integer := by
    rw [v.integer_bool fromBool]
    cases bytes : v.bytes with
    | nil =>
        have length := v.length
        have sizes := s.sized
        rw [bytes, List.length_nil] at length
        omega
    | cons byte rest =>
        rw [bytes, word] at few
        rw [word, List.headD_cons]
        have := byte.toNat_lt
        omega
  simp only [lj_cconv_ct_ct, row_B toBool, row_B fromBool, if_true, storeBool_eq toBool, first]

/-- Booleans to booleans. -/
theorem B_B (toBool : d.bool = true) (fromBool : s.bool = true) (holds : HoldsSource run sp v) :
    ∃ out, lj_cconv_ct_ct d s v.bytes = some out ∧ TraceStores LJ_64 d s sp svisnz run out := by
  have value := holds_integer v (CNumber.bool_integral fromBool) holds
  have destination := crec_ct2irt_integer d (CNumber.bool_integral toBool)
  refine ⟨ofInteger d.size v.integer, cconv_B_B v toBool fromBool,
    ⟨{ dt := crec_ct2irt d, sp := sp }, ?_, ?_⟩⟩
  · simp only [crec_ct_ct, row_B toBool, row_B fromBool, if_true]
  · rw [run_unguarded, value, Option.map_some, xstoreBytes, destination.size,
      ofWord_register _ (CNumber.bool_fits toBool _ (by split <;> decide))]

/-- What is stored for a boolean. -/
def boolInteger (b : Bool) : Int := if b then 1 else 0

theorem column_not_B (notBool : s.bool = false) : cconv_idx s.info ≠ CCX_B := by
  rw [s.cconv_idx_eq, notBool]
  cases s.fp <;> decide

/-- The interpreter tests the source against zero. -/
theorem cconv_B (toBool : d.bool = true) (notBool : s.bool = false) :
    lj_cconv_ct_ct d s v.bytes = some (ofInteger d.size (boolInteger v.nonzero)) := by
  have notColumn := column_not_B notBool
  have stored (b : Bool) : storeBool d.size (if b then 1 else 0) = ofInteger d.size (boolInteger b) := by
    rw [storeBool_eq toBool]
    cases b <;> rfl
  by_cases fp : s.fp = true
  · have notI : CCX_F ≠ CCX_I := by decide
    have notB : CCX_F ≠ CCX_B := by decide
    rw [← stored, CValue.nonzero, if_pos fp, CValue.datum, CNumber.format]
    rcases s.fp_size fp with size | size
    · simp only [lj_cconv_ct_ct, row_B toBool, row_F fp, if_true, if_neg notI, if_neg notB, size]
      simp only [show ¬(4 = 8) by decide, if_false]
      cases (binary32.decode (word v.bytes)).isZero <;> rfl
    · simp only [lj_cconv_ct_ct, row_B toBool, row_F fp, if_true, if_neg notI, if_neg notB, size]
      cases (binary64.decode (word v.bytes)).isZero <;> rfl
  · have isI := row_I notBool (Bool.eq_false_of_not_eq_true fp)
    have same : (v.bytes.foldl (· ||| ·) 0 != 0) = (word v.bytes != 0) := by
      have or := foldl_or v.bytes 0
      rw [Bool.eq_iff_iff, bne_iff_ne, bne_iff_ne]
      exact not_congr (or.trans (and_iff_right rfl))
    have notI : CCX_I ≠ CCX_B := by decide
    rw [← stored, CValue.nonzero, if_neg fp]
    simp only [lj_cconv_ct_ct, row_B toBool, isI, if_true, if_neg notI, same]

/-- The test of the guard is that of the recorder. -/
theorem isZeroValue_eq (holds : HoldsSource run sp v) :
    ∃ n, sp.eval run = some n ∧ isZeroValue (crec_ct2irt s) n = !v.nonzero := by
  by_cases fp : s.fp = true
  · obtain ⟨sFp, sFormat, -, -⟩ := crec_ct2irt_format fp
    refine ⟨_, holds_fp v fp holds, ?_⟩
    rw [isZeroValue, sFp, sFormat, CValue.nonzero, if_pos fp, CValue.datum, Bool.not_not]
    rfl
  · have integral := Bool.eq_false_of_not_eq_true fp
    have source := crec_ct2irt_integer s integral
    refine ⟨_, holds_integer v integral holds, ?_⟩
    have sizes := s.sized
    have kept : registerInt (crec_ct2irt s) (register (if s.size = 8 then 64 else 32) v.integer) =
        v.integer := by
      apply registerInt_register
      · rw [source.size]
        split <;> omega
      · rw [source.size, source.unsigned]
        exact v.integer_inRange
    have zero : register (if s.size = 8 then 64 else 32) v.integer = 0 ↔ word v.bytes = 0 := by
      rw [← v.integer_eq_zero]
      constructor
      · intro none
        rw [← kept, none, registerInt]
        split
        · rfl
        · exact Int.zero_bmod
      · intro none
        rw [none]
        rfl
    have test : (register (if s.size = 8 then 64 else 32) v.integer == 0) = (word v.bytes == 0) := by
      rw [Bool.eq_iff_iff, beq_iff_eq, beq_iff_eq]
      exact zero
    rw [isZeroValue, source.notFp, CValue.nonzero, if_neg fp, if_neg Bool.false_ne_true, test, bne,
      Bool.not_not]

/-- A trace is specialized to what the recorder saw. It leaves when the source is not so. -/
theorem stores_B {seen : CValue s} (toBool : d.bool = true) (notBool : s.bool = false)
    (tells : svisnz.Tells seen) (holds : HoldsSource run sp v) :
    ∃ recorded, crec_ct_ct d s LJ_64 sp svisnz = some recorded ∧
      recorded.run run =
        if seen.nonzero = v.nonzero then some (ofInteger d.size (boolInteger v.nonzero)) else none := by
  have notColumn := column_not_B notBool
  obtain ⟨n, value, test⟩ := isZeroValue_eq v holds
  have known : crec_ct2irt s ≠ .cdata := by
    by_cases fp : s.fp = true
    · exact (crec_ct2irt_format fp).2.2.2
    · exact (crec_ct2irt_integer s (Bool.eq_false_of_not_eq_true fp)).known
  have destination := crec_ct2irt_integer d (CNumber.bool_integral toBool)
  refine ⟨{ guard := some (seen.nonzero, crec_ct2irt s, sp), dt := crec_ct2irt d
            sp := .kint (if seen.nonzero then 1 else 0) }, ?_, ?_⟩
  · simp only [crec_ct_ct, row_B toBool, if_true, if_neg notColumn, if_neg known, isnonzero_eq tells]
  · have stored (b : Bool) : xstoreBytes (crec_ct2irt d) (register 32 (if b then 1 else 0)) =
        ofInteger d.size (boolInteger b) := by
      rw [xstoreBytes, destination.size, ofWord_register _ (CNumber.bool_fits toBool 32 (by decide))]
      rfl
    simp only [Recorded.run, value, test, TRef.eval, Option.bind_eq_bind, Option.bind_some,
      Option.pure_def, stored]
    cases seen.nonzero <;> cases v.nonzero <;> rfl

end

end TvmJit
