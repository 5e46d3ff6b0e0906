import TvmJit.Foundation.Memory
import TvmJit.Ffi.Conversions
import TvmJit.Ffi.Place

/-! Bitfields read and written in the memory of a struct. -/

namespace TvmJit

open Foundation

inductive BitfieldError
  | NYIPACKBIT
  deriving DecidableEq

/-- What a bitfield is read as. -/
inductive BfValue
  | number (value : Int)
  | bool (value : Bool)
  deriving DecidableEq

/-! Common types. -/

def CTINT32 : CNumber where
  info := CTINFO CT_NUM (CTALIGN 2)
  size := 4
  isnum := by decide
  plain := by decide
  sized := by decide
  boolSize := by decide
  fpSize := by decide

def CTUINT32 : CNumber where
  info := CTINFO CT_NUM (CTF_UNSIGNED ||| CTALIGN 2)
  size := 4
  isnum := by decide
  plain := by decide
  sized := by decide
  boolSize := by decide
  fpSize := by decide

def CTBOOL : CNumber where
  info := CTINFO CT_NUM (CTF_BOOL ||| CTF_UNSIGNED ||| CTALIGN 0)
  size := 1
  isnum := by decide
  plain := by decide
  sized := by decide
  boolSize := by decide
  fpSize := by decide

section

variable [CTarget]

/-- Convert bitfield to TValue. Nothing for an assertion that fails. -/
def lj_cconv_tv_bf (s : CType) (m : Memory) (sp : Nat) : Option (Except BitfieldError BfValue) :=
  let info := s.info
  let csz := ctype_bitcsz info
  let container : Option (BitVec 32) :=
    if csz = 4 then some (BitVec.ofNat 32 (m.load CTarget.LJ_BE 4 sp))
    else if csz = 2 then some (BitVec.ofNat 32 (m.load CTarget.LJ_BE 2 sp))
    else if csz = 1 then some (BitVec.ofNat 32 (m.load CTarget.LJ_BE 1 sp))
    else none
  match container with
  | none => none
  | some val =>
      let pos := ctype_bitpos info
      let bsz := ctype_bitbsz info
      if ¬(pos < 8 * csz) ∨ ¬(bsz > 0 ∧ bsz ≤ 8 * csz) then none
      -- Check if a packed bitfield crosses a container boundary.
      else if pos + bsz > 8 * csz then some (.error .NYIPACKBIT)
      else if info &&& CTF_BOOL = 0 then
        let shift := 32 - bsz
        if info &&& CTF_UNSIGNED = 0 then
          some (.ok (.number ((val <<< (shift - pos)).sshiftRight shift.toNat).toInt))
        else some (.ok (.number ((val <<< (shift - pos)) >>> shift).toNat))
      else if bsz ≠ 1 then none
      else some (.ok (.bool ((val >>> pos) &&& 1 = 1)))

/-- Convert TValue to bitfield. The value is that of a number type; its bytes are given from the
least one on. Nothing for an assertion or a conversion that fails, and for `1u << 32`. -/
def lj_cconv_bf_tv (d : CType) (m : Memory) (dp : Nat) (s : CNumber) (o : List UInt8) :
    Option (Except BitfieldError Memory) :=
  let info := d.info
  let csz := ctype_bitcsz info
  let pos := ctype_bitpos info
  let bsz := ctype_bitbsz info
  let did :=
    if info &&& CTF_BOOL ≠ 0 then CTBOOL else if info &&& CTF_UNSIGNED ≠ 0 then CTUINT32 else CTINT32
  if info &&& CTF_BOOL ≠ 0 ∧ bsz ≠ 1 then none
  else
    match lj_cconv_ct_ct did s o with
    | none => none
    | some tmp =>
        let val := BitVec.ofNat 32 (word tmp)
        if ¬(pos < 8 * csz) ∨ ¬(bsz > 0 ∧ bsz ≤ 8 * csz) then none
        -- Check if a packed bitfield crosses a container boundary.
        else if pos + bsz > 8 * csz then some (.error .NYIPACKBIT)
        else if bsz = 32 then none
        else
          let mask := (((1 : BitVec 32) <<< bsz) - 1) <<< pos
          let val := (val <<< pos) &&& mask
          let stored (n : Nat) : Memory :=
            let old := BitVec.ofNat 32 (m.load CTarget.LJ_BE n dp)
            m.store CTarget.LJ_BE n dp ((old &&& ~~~mask) ||| val).toNat
          if csz = 4 then some (.ok (stored 4))
          else if csz = 2 then some (.ok (stored 2))
          else if csz = 1 then some (.ok (stored 1))
          else none

end

/-! ## Bits of a container -/

section

variable {pos width : Nat} {val : BitVec 32}

/-- The bits of a field, moved up and down again. -/
theorem toNat_shl_shr (positive : 0 < width) (fits : pos + width ≤ 32) :
    ((val <<< (32 - width - pos)) >>> (32 - width)).toNat = val.toNat / 2 ^ pos % 2 ^ width := by
  apply Nat.eq_of_testBit_eq
  intro k
  rw [BitVec.toNat_ushiftRight, Nat.testBit_shiftRight, BitVec.testBit_toNat, BitVec.getLsbD_shiftLeft,
    Nat.testBit_mod_two_pow, Nat.testBit_div_two_pow, BitVec.testBit_toNat]
  by_cases low : k < width
  · have same : 32 - width + k - (32 - width - pos) = k + pos := by omega
    simp [low, same, show 32 - width + k < 32 by omega]
    omega
  · simp [low, show ¬32 - width + k < 32 by omega]

/-- The sign of the field is the sign of the word. -/
theorem toInt_shl_sshr (positive : 0 < width) (fits : pos + width ≤ 32) :
    ((val <<< (32 - width - pos)).sshiftRight (32 - width)).toInt =
      Int.bmod (val.toNat / 2 ^ pos % 2 ^ width : Nat) (2 ^ width) := by
  have same : (val <<< (32 - width - pos)).sshiftRight (32 - width) =
      (val.extractLsb' pos width).signExtend 32 := by
    apply BitVec.eq_of_getLsbD_eq
    intro k inside
    have msb : (val.extractLsb' pos width).msb = val.getLsbD (pos + (width - 1)) := by
      rw [BitVec.msb_eq_getLsbD_last, BitVec.getLsbD_extractLsb', decide_eq_true (by omega), Bool.true_and]
    have msb' : (val <<< (32 - width - pos)).msb = val.getLsbD (pos + (width - 1)) := by
      rw [BitVec.msb_eq_getLsbD_last, BitVec.getLsbD_shiftLeft, decide_eq_true (by omega),
        decide_eq_false (by omega), Bool.not_false, Bool.true_and, Bool.true_and]
      congr 1
      omega
    rw [BitVec.getLsbD_sshiftRight, BitVec.getLsbD_signExtend, msb, msb', BitVec.getLsbD_extractLsb',
      BitVec.getLsbD_shiftLeft]
    have notPast : (!decide (32 ≤ k)) = true := by simp [inside]
    rw [notPast, Bool.true_and, decide_eq_true inside, Bool.true_and]
    by_cases low : k < width
    · have here : 32 - width + k < 32 := by omega
      have behind : ¬32 - width + k < 32 - width - pos := by omega
      rw [if_pos here, if_pos low, decide_eq_true here, decide_eq_false behind, decide_eq_true low,
        show 32 - width + k - (32 - width - pos) = pos + k by omega]
      rfl
    · rw [if_neg (by omega), if_neg low]
  rw [same, BitVec.toInt_signExtend_of_le (by omega), BitVec.toInt_eq_toNat_bmod, BitVec.extractLsb'_toNat,
    Nat.shiftRight_eq_div_pow]

theorem mask_getLsbD (narrow : width < 32) {k : Nat} (inside : k < 32) :
    (((((1 : BitVec 32) <<< width) - 1) <<< pos).getLsbD k = true) ↔ pos ≤ k ∧ k < pos + width := by
  have one : (1 : BitVec 32) <<< width = BitVec.ofNat 32 (2 ^ width) := by
    apply BitVec.eq_of_toNat_eq
    simp [Nat.shiftLeft_eq]
  have mask : (BitVec.ofNat 32 (2 ^ width) - 1).toNat = 2 ^ width - 1 := toNat_mask narrow
  rw [one, BitVec.getLsbD_shiftLeft, decide_eq_true inside, Bool.true_and, ← BitVec.testBit_toNat,
    mask, Nat.testBit_two_pow_sub_one, Bool.and_eq_true, Bool.not_eq_true',
    decide_eq_false_iff_not, decide_eq_true_eq]
  omega

/-- The word that is stored: the field from the value, the rest from the old one. -/
theorem replaced_testBit (old : BitVec 32) (narrow : width < 32) {k : Nat} (inside : k < 32) :
    ((old &&& ~~~((((1 : BitVec 32) <<< width) - 1) <<< pos)) |||
        ((val <<< pos) &&& ((((1 : BitVec 32) <<< width) - 1) <<< pos))).toNat.testBit k =
      if pos ≤ k ∧ k < pos + width then val.toNat.testBit (k - pos) else old.toNat.testBit k := by
  have mask : (((((1 : BitVec 32) <<< width) - 1) <<< pos).getLsbD k = true) ↔ pos ≤ k ∧ k < pos + width :=
    mask_getLsbD narrow inside
  rw [BitVec.testBit_toNat, BitVec.testBit_toNat, BitVec.testBit_toNat, BitVec.getLsbD_or,
    BitVec.getLsbD_and, BitVec.getLsbD_and, BitVec.getLsbD_not, decide_eq_true inside, Bool.true_and]
  split
  · next within =>
      rw [mask.mpr within, BitVec.getLsbD_shiftLeft, decide_eq_true inside,
        decide_eq_false (Nat.not_lt.mpr within.1)]
      simp
  · next without =>
      rw [Bool.eq_false_of_not_eq_true fun within => without (mask.mp within)]
      simp

end

/-! ## A bitfield inside its container -/

/-- What the element of a bitfield says when the field does not cross its container. -/
structure CType.Inside (ct : CType) (n pos width : Nat) : Prop where
  container : (ctype_bitcsz ct.info).toNat = n
  size : n = 4 ∨ n = 2 ∨ n = 1
  bitPos : (ctype_bitpos ct.info).toNat = pos
  bitWidth : (ctype_bitbsz ct.info).toNat = width
  positive : 0 < width
  fits : pos + width ≤ 8 * n
  /-- A field of 32 bits is a regular one. -/
  narrow : width < 32
  bool : ct.info &&& CTF_BOOL ≠ 0 → width = 1

/-- An integer reduced to the width of a field and extended. -/
def asField (info : CTInfo) (width : Nat) (i : Int) : BfValue :=
  if info &&& CTF_BOOL = 0 then
    if info &&& CTF_UNSIGNED = 0 then .number (i.bmod (2 ^ width)) else .number (i % 2 ^ width)
  else .bool (i ≠ 0)

/-- Different bits are different values. -/
theorem asField_inj {info : CTInfo} {width r r' : Nat} (less : r < 2 ^ width) (less' : r' < 2 ^ width)
    (bool : info &&& CTF_BOOL ≠ 0 → width = 1) (same : asField info width r = asField info width r') :
    r = r' := by
  have small : (r : Int) < 2 ^ width := by exact_mod_cast less
  have small' : (r' : Int) < 2 ^ width := by exact_mod_cast less'
  have low : (0 : Int) ≤ r := Int.natCast_nonneg r
  have low' : (0 : Int) ≤ r' := Int.natCast_nonneg r'
  have ofMod (equal : (r : Int) % 2 ^ width = r' % 2 ^ width) : r = r' := by
    rw [Int.emod_eq_of_lt low small, Int.emod_eq_of_lt low' small'] at equal
    exact_mod_cast equal
  rw [asField, asField] at same
  split at same
  · split at same
    · apply ofMod
      have equal := congrArg (· % (2 ^ width : Int)) (BfValue.number.inj same)
      have bmod (i : Int) : i.bmod (2 ^ width) % 2 ^ width = i % 2 ^ width := by
        have mod := Int.bmod_emod (x := i) (m := 2 ^ width)
        rwa [Int.natCast_pow] at mod
      rwa [bmod, bmod] at equal
    · exact ofMod (BfValue.number.inj same)
  · next isBool =>
      rw [bool isBool] at less less'
      have equal := BfValue.bool.inj same
      rw [decide_eq_decide] at equal
      omega

/-- A value all of whose bits are set in every field. -/
def allOnes (info : CTInfo) : Int := if info &&& CTF_BOOL ≠ 0 then 1 else -1

theorem asField_allOnes {info : CTInfo} {width : Nat} (bool : info &&& CTF_BOOL ≠ 0 → width = 1) :
    asField info width (allOnes info) = asField info width (2 ^ width - 1 : Nat) := by
  rw [allOnes, asField, asField]
  by_cases isBool : info &&& CTF_BOOL = 0
  · have notBool : ¬info &&& CTF_BOOL ≠ 0 := not_not.mpr isBool
    have one : 1 ≤ 2 ^ width := Nat.one_le_two_pow
    have mod : (-1 : Int) % 2 ^ width = (2 ^ width - 1 : Nat) % 2 ^ width := by
      rw [Int.emod_eq_emod_iff_emod_sub_eq_zero, Int.natCast_sub one, Int.natCast_pow]
      apply Int.emod_eq_zero_of_dvd
      exact ⟨-1, by push_cast; ring⟩
    have bmod (i : Int) : (i % 2 ^ width).bmod (2 ^ width) = i.bmod (2 ^ width) := by
      have same := Int.emod_bmod (x := i) (n := 2 ^ width)
      rwa [Int.natCast_pow] at same
    rw [if_pos isBool, if_pos isBool, if_neg notBool, ← bmod, mod, bmod]
  · rw [if_neg isBool, if_neg isBool, if_pos isBool, bool isBool]
    rfl

section

variable [CTarget] {ct : CType} {n pos width : Nat} {m m' : Memory} {a : Nat}

/-- The bits of a field as a number. -/
def fieldBits (n pos width : Nat) (m : Memory) (a : Nat) : Nat :=
  m.load CTarget.LJ_BE n a / 2 ^ pos % 2 ^ width

/-- The first bit of a field in the memory. -/
def fieldStart (n pos width a : Nat) : Nat :=
  8 * a + if CTarget.LJ_BE then 8 * n - pos - width else pos

theorem fieldBits_lt : fieldBits n pos width m a < 2 ^ width := Nat.mod_lt _ (Nat.two_pow_pos _)

theorem fieldBits_testBit (fits : pos + width ≤ 8 * n) (k : Nat) :
    (fieldBits n pos width m a).testBit k = (decide (k < width) &&
      m.bit CTarget.LJ_BE (8 * a + Memory.place CTarget.LJ_BE (8 * n) (pos + k))) := by
  rw [fieldBits, Nat.testBit_mod_two_pow, Nat.testBit_div_two_pow]
  by_cases low : k < width
  · rw [Nat.add_comm k pos, Memory.load_testBit (by omega)]
  · rw [decide_eq_false low, Bool.false_and, Bool.false_and]

/-- The bits of the span are those of the field. -/
theorem place_mem (fits : pos + width ≤ 8 * n) {k : Nat} (low : k < width) :
    fieldStart n pos width a ≤ 8 * a + Memory.place CTarget.LJ_BE (8 * n) (pos + k) ∧
      8 * a + Memory.place CTarget.LJ_BE (8 * n) (pos + k) < fieldStart n pos width a + width := by
  rw [fieldStart, Memory.place]
  split <;> omega

theorem mem_place (fits : pos + width ≤ 8 * n) {j : Nat} (least : fieldStart n pos width a ≤ j)
    (most : j < fieldStart n pos width a + width) :
    ∃ k, k < width ∧ j = 8 * a + Memory.place CTarget.LJ_BE (8 * n) (pos + k) := by
  rw [fieldStart] at least most
  cases big : CTarget.LJ_BE with
  | false =>
      rw [big, if_neg Bool.false_ne_true] at least most
      exact ⟨j - 8 * a - pos, by omega, by rw [Memory.place, if_neg Bool.false_ne_true]; omega⟩
  | true =>
      rw [big, if_pos rfl] at least most
      exact ⟨8 * a + 8 * n - pos - 1 - j, by omega, by rw [Memory.place, if_pos rfl]; omega⟩

/-- A field only sees its own bits. -/
theorem fieldBits_congr (fits : pos + width ≤ 8 * n)
    (same : ∀ k, fieldStart n pos width a ≤ k → k < fieldStart n pos width a + width →
      m.bit CTarget.LJ_BE k = m'.bit CTarget.LJ_BE k) :
    fieldBits n pos width m a = fieldBits n pos width m' a := by
  apply Nat.eq_of_testBit_eq
  intro k
  rw [fieldBits_testBit fits, fieldBits_testBit fits]
  by_cases low : k < width
  · have ⟨least, most⟩ := place_mem (a := a) fits low
    rw [same _ least most]
  · rw [decide_eq_false low, Bool.false_and, Bool.false_and]

/-- And it sees all of them. -/
theorem bits_of_fieldBits (fits : pos + width ≤ 8 * n)
    (same : fieldBits n pos width m a = fieldBits n pos width m' a) {k : Nat}
    (least : fieldStart n pos width a ≤ k) (most : k < fieldStart n pos width a + width) :
    m.bit CTarget.LJ_BE k = m'.bit CTarget.LJ_BE k := by
  have ⟨j, low, isPlace⟩ := mem_place fits least most
  have here := congrArg (Nat.testBit · j) same
  rw [fieldBits_testBit fits, fieldBits_testBit fits, decide_eq_true low, Bool.true_and,
    Bool.true_and] at here
  rw [isPlace]
  exact here

omit [CTarget] in
theorem CType.Inside.tests (inside : ct.Inside n pos width) :
    ctype_bitpos ct.info < 8 * ctype_bitcsz ct.info ∧ ctype_bitbsz ct.info > 0 ∧
      ctype_bitbsz ct.info ≤ 8 * ctype_bitcsz ct.info ∧
      ¬ctype_bitpos ct.info + ctype_bitbsz ct.info > 8 * ctype_bitcsz ct.info := by
  have ⟨container, size, bitPos, bitWidth, positive, fits, _, _⟩ := inside
  have bits : (8 * ctype_bitcsz ct.info).toNat = 8 * n := by
    rw [BitVec.toNat_mul, container]
    change 8 * n % 2 ^ 32 = 8 * n
    omega
  have sum : (ctype_bitpos ct.info + ctype_bitbsz ct.info).toNat = pos + width := by
    rw [BitVec.toNat_add, bitPos, bitWidth]
    omega
  rw [BitVec.lt_def, gt_iff_lt, BitVec.lt_def, BitVec.le_def, gt_iff_lt, BitVec.lt_def, bits, sum,
    bitPos, bitWidth]
  change _ ∧ 0 < width ∧ _
  omega

omit [CTarget] in
/-- Which of the three containers it is. -/
theorem CType.Inside.container_cases {α : Type} (inside : ct.Inside n pos width) (at_ : Nat → α)
    (none : α) : (if ctype_bitcsz ct.info = 4 then at_ 4 else if ctype_bitcsz ct.info = 2 then at_ 2
      else if ctype_bitcsz ct.info = 1 then at_ 1 else none) = at_ n := by
  have number (k : Nat) (small : k < 2 ^ 32) : ctype_bitcsz ct.info = BitVec.ofNat 32 k ↔ n = k := by
    rw [← BitVec.toNat_inj, inside.container, BitVec.toNat_ofNat, Nat.mod_eq_of_lt small]
  have four : ctype_bitcsz ct.info = 4 ↔ n = 4 := number 4 (by decide)
  have two : ctype_bitcsz ct.info = 2 ↔ n = 2 := number 2 (by decide)
  have one : ctype_bitcsz ct.info = 1 ↔ n = 1 := number 1 (by decide)
  simp only [four, two, one]
  rcases inside.size with rfl | rfl | rfl <;> rfl

/-- What is read is the field, reduced and extended. -/
theorem CType.Inside.tv_bf (inside : ct.Inside n pos width) (m : Memory) (a : Nat) :
    lj_cconv_tv_bf ct m a = some (.ok (asField ct.info width (fieldBits n pos width m a))) := by
  have ⟨below, positive, narrow, fits⟩ := inside.tests
  have container := inside.container_cases
    (fun n => some (BitVec.ofNat 32 (m.load CTarget.LJ_BE n a))) none
  have large : 8 * n ≤ 32 := by
    have := inside.size
    omega
  have word : (BitVec.ofNat 32 (m.load CTarget.LJ_BE n a)).toNat = m.load CTarget.LJ_BE n a := by
    rw [BitVec.toNat_ofNat]
    apply Nat.mod_eq_of_lt
    exact Memory.load_lt.trans_le (Nat.pow_le_pow_right (by decide) large)
  have fitsWord : pos + width ≤ 32 := inside.fits.trans large
  have shift : (32 - ctype_bitbsz ct.info).toNat = 32 - width := by
    rw [BitVec.toNat_sub_of_le, inside.bitWidth]
    · rfl
    · rw [BitVec.le_def, inside.bitWidth]
      exact (Nat.le_add_left _ _).trans fitsWord
  have shift' : (32 - ctype_bitbsz ct.info - ctype_bitpos ct.info).toNat = 32 - width - pos := by
    rw [BitVec.toNat_sub_of_le, shift, inside.bitPos]
    rw [BitVec.le_def, shift, inside.bitPos]
    omega
  have asserted : ¬(¬(ctype_bitpos ct.info < 8 * ctype_bitcsz ct.info) ∨
      ¬(ctype_bitbsz ct.info > 0 ∧ ctype_bitbsz ct.info ≤ 8 * ctype_bitcsz ct.info)) := by
    rw [not_or, not_not, not_not]
    exact ⟨below, positive, narrow⟩
  rw [lj_cconv_tv_bf]
  dsimp only
  rw [container]
  dsimp only
  rw [if_neg asserted, if_neg fits, asField]
  by_cases bool : ct.info &&& CTF_BOOL = 0
  · rw [if_pos bool, if_pos bool]
    by_cases signed : ct.info &&& CTF_UNSIGNED = 0
    · rw [if_pos signed, if_pos signed, BitVec.shiftLeft_eq', shift, shift',
        toInt_shl_sshr inside.positive fitsWord, word]
      rfl
    · rw [if_neg signed, if_neg signed, BitVec.shiftLeft_eq', BitVec.ushiftRight_eq', shift, shift',
        toNat_shl_shr inside.positive fitsWord, word]
      have below : fieldBits n pos width m a < 2 ^ width := fieldBits_lt
      have kept : (fieldBits n pos width m a : Int) % 2 ^ width = fieldBits n pos width m a := by
        apply Int.emod_eq_of_lt
        · exact Int.natCast_nonneg _
        · exact_mod_cast below
      rw [kept]
      rfl
  · have one := inside.bool bool
    have isOne : ctype_bitbsz ct.info = 1 := by
      rw [← BitVec.toNat_inj, inside.bitWidth, one]
      rfl
    rw [if_neg bool, if_neg bool, if_neg (not_not.mpr isOne)]
    have low : ((BitVec.ofNat 32 (m.load CTarget.LJ_BE n a) >>> ctype_bitpos ct.info) &&& 1).toNat =
        fieldBits n pos width m a := by
      rw [BitVec.toNat_and, BitVec.ushiftRight_eq', BitVec.toNat_ushiftRight, inside.bitPos, word,
        Nat.shiftRight_eq_div_pow, fieldBits, one]
      exact Nat.and_one_is_mod _
    have small : fieldBits n pos width m a < 2 := by
      have below : fieldBits n pos width m a < 2 ^ width := fieldBits_lt
      rwa [one] at below ⊢
    have truth : ((BitVec.ofNat 32 (m.load CTarget.LJ_BE n a) >>> ctype_bitpos ct.info) &&& 1 = 1) ↔
        (fieldBits n pos width m a : Int) ≠ 0 := by
      rw [← BitVec.toNat_inj, low]
      change _ = 1 ↔ _
      omega
    simp only [truth]

/-- What is written is the field, and no other bit. -/
theorem CType.Inside.bf_tv {s : CNumber} {o tmp : List UInt8} (inside : ct.Inside n pos width)
    (converted : lj_cconv_ct_ct (if ct.info &&& CTF_BOOL ≠ 0 then CTBOOL
      else if ct.info &&& CTF_UNSIGNED ≠ 0 then CTUINT32 else CTINT32) s o = some tmp)
    (length : tmp.length ≤ 4) (m : Memory) (a : Nat) :
    ∃ m', lj_cconv_bf_tv ct m a s o = some (.ok m') ∧
      fieldBits n pos width m' a = word tmp % 2 ^ width ∧
      ∀ k, ¬(fieldStart n pos width a ≤ k ∧ k < fieldStart n pos width a + width) →
        m'.bit CTarget.LJ_BE k = m.bit CTarget.LJ_BE k := by
  have ⟨below, positive, narrow, fits⟩ := inside.tests
  let val := BitVec.ofNat 32 (word tmp)
  let old := BitVec.ofNat 32 (m.load CTarget.LJ_BE n a)
  let mask := (((1 : BitVec 32) <<< width) - 1) <<< pos
  let new := (old &&& ~~~mask) ||| ((val <<< pos) &&& mask)
  have large : 8 * n ≤ 32 := by
    have := inside.size
    omega
  have isOld : old.toNat = m.load CTarget.LJ_BE n a := by
    rw [BitVec.toNat_ofNat]
    apply Nat.mod_eq_of_lt
    exact Memory.load_lt.trans_le (Nat.pow_le_pow_right (by decide) large)
  have isVal : val.toNat = word tmp := by
    rw [BitVec.toNat_ofNat]
    apply Nat.mod_eq_of_lt
    exact (word_lt tmp).trans_le (Nat.pow_le_pow_right (by decide) length)
  have replaced {k : Nat} (low : k < 8 * n) : new.toNat.testBit k =
      if pos ≤ k ∧ k < pos + width then (word tmp).testBit (k - pos)
      else (m.load CTarget.LJ_BE n a).testBit k := by
    rw [← isVal, ← isOld]
    exact replaced_testBit old inside.narrow (low.trans_le large)
  have asserted : ¬(¬(ctype_bitpos ct.info < 8 * ctype_bitcsz ct.info) ∨
      ¬(ctype_bitbsz ct.info > 0 ∧ ctype_bitbsz ct.info ≤ 8 * ctype_bitcsz ct.info)) := by
    rw [not_or, not_not, not_not]
    exact ⟨below, positive, narrow⟩
  have notBool : ¬(ct.info &&& CTF_BOOL ≠ 0 ∧ ctype_bitbsz ct.info ≠ 1) := by
    rw [not_and, not_not, ← BitVec.toNat_inj, inside.bitWidth]
    exact inside.bool
  have shifts : ¬ctype_bitbsz ct.info = 32 := by
    rw [← BitVec.toNat_inj, inside.bitWidth]
    exact inside.narrow.ne
  refine ⟨m.store CTarget.LJ_BE n a new.toNat, ?_, ?_, fun k outside => ?_⟩
  · have container := inside.container_cases (fun n => some (Except.ok (ε := BitfieldError)
      (m.store CTarget.LJ_BE n a ((BitVec.ofNat 32 (m.load CTarget.LJ_BE n a) &&& ~~~mask) |||
        ((val <<< pos) &&& mask)).toNat))) none
    rw [lj_cconv_bf_tv]
    dsimp only
    rw [if_neg notBool, converted]
    dsimp only
    rw [if_neg asserted, if_neg fits, if_neg shifts, BitVec.shiftLeft_eq', BitVec.shiftLeft_eq',
      BitVec.shiftLeft_eq', inside.bitPos, inside.bitWidth]
    exact container
  · apply Nat.eq_of_testBit_eq
    intro k
    rw [fieldBits_testBit inside.fits, Nat.testBit_mod_two_pow]
    by_cases low : k < width
    · have fits := inside.fits
      have here : pos + k < 8 * n := by omega
      have there : Memory.place CTarget.LJ_BE (8 * n) (pos + k) < 8 * n := Memory.place_lt here
      rw [decide_eq_true low, Bool.true_and, Bool.true_and, Memory.store_bit, if_pos (by omega),
        Nat.add_sub_cancel_left, Memory.place_place here, replaced here, if_pos (by omega),
        Nat.add_sub_cancel_left]
    · rw [decide_eq_false low, Bool.false_and, Bool.false_and]
  · rw [Memory.store_bit]
    split
    · next within =>
        have low : k - 8 * a < 8 * n := by omega
        have there : Memory.place CTarget.LJ_BE (8 * n) (k - 8 * a) < 8 * n := Memory.place_lt low
        have notField : ¬(pos ≤ Memory.place CTarget.LJ_BE (8 * n) (k - 8 * a) ∧
            Memory.place CTarget.LJ_BE (8 * n) (k - 8 * a) < pos + width) := by
          intro isField
          apply outside
          have member := place_mem (a := a) inside.fits
            (k := Memory.place CTarget.LJ_BE (8 * n) (k - 8 * a) - pos) (by omega)
          rw [Nat.add_sub_cancel' isField.1, Memory.place_place low] at member
          omega
        rw [replaced there, if_neg notField, Memory.load_testBit there, Memory.place_place low,
          Nat.add_sub_cancel' within.1]
    · rfl

end

/-! ## Values -/

section

variable {s : CNumber}

/-- The integer of a value in a field. A number is cast, which is defined for those in the range
of the 32-bit type. -/
def CValue.FieldInteger (info : CTInfo) (v : CValue s) (i : Int) : Prop :=
  if info &&& CTF_BOOL ≠ 0 then i = boolInteger v.nonzero
  else if s.fp then v.datum.toInt = some i ∧ InRange (info &&& CTF_UNSIGNED != 0) 32 i
  else i = v.integer

theorem boolInteger_integer (v : CValue s) (fromBool : s.bool = true) :
    v.integer = boolInteger v.nonzero := by
  have few := v.normalized fromBool
  rw [v.integer_bool fromBool, CValue.nonzero, CNumber.bool_integral fromBool, boolInteger]
  rcases Nat.le_one_iff_eq_zero_or_eq_one.mp few with zero | one
  · rw [zero]
    rfl
  · rw [one]
    rfl

theorem cconv_bool (v : CValue s) :
    lj_cconv_ct_ct CTBOOL s v.bytes = some (ofInteger 1 (boolInteger v.nonzero)) := by
  by_cases fromBool : s.bool = true
  · rw [← boolInteger_integer v fromBool]
    exact cconv_B_B v rfl fromBool
  · exact cconv_B v rfl (Bool.eq_false_of_not_eq_true fromBool)

theorem word_ofInteger (n : Nat) (i : Int) : (word (ofInteger n i) : Int) = i % 256 ^ n := by
  have positive : (0 : Int) < 256 ^ n := Int.pow_pos (by decide)
  have low := Int.emod_nonneg i positive.ne'
  have high := Int.emod_lt_of_pos i positive
  rw [ofInteger, word_ofWord, Int.natCast_emod, Int.toNat_of_nonneg low, Int.natCast_pow]
  exact Int.emod_emod_of_dvd i (dvd_refl _)

/-- The conversion in front of the store. -/
theorem converted {info : CTInfo} {v : CValue s} {i : Int} (isInteger : v.FieldInteger info i)
    {width : Nat} (narrow : width ≤ 32) (bool : info &&& CTF_BOOL ≠ 0 → width = 1) :
    ∃ tmp, lj_cconv_ct_ct (if info &&& CTF_BOOL ≠ 0 then CTBOOL
        else if info &&& CTF_UNSIGNED ≠ 0 then CTUINT32 else CTINT32) s v.bytes = some tmp ∧
      tmp.length ≤ 4 ∧ asField info width (word tmp % 2 ^ width : Nat) = asField info width i := by
  rw [CValue.FieldInteger] at isInteger
  by_cases isBool : info &&& CTF_BOOL ≠ 0
  · rw [if_pos isBool] at isInteger
    rw [if_pos isBool]
    refine ⟨_, cconv_bool v, (length_ofWord _ _).trans_le (by decide), ?_⟩
    rw [Int.natCast_emod, word_ofInteger, bool isBool, isInteger]
    cases v.nonzero <;> rfl
  · rw [if_neg isBool] at isInteger
    rw [if_neg isBool]
    have stored (d : CNumber) (size : d.size = 4)
        (same : lj_cconv_ct_ct d s v.bytes = some (ofInteger d.size i)) :
        ∃ tmp, lj_cconv_ct_ct d s v.bytes = some tmp ∧ tmp.length ≤ 4 ∧
          asField info width (word tmp % 2 ^ width : Nat) = asField info width i := by
      refine ⟨_, same, (length_ofWord _ _).trans_le size.le, ?_⟩
      have divides : (2 : Int) ^ width ∣ 256 ^ 4 := by
        have := pow_dvd_pow (2 : Int) narrow
        exact this
      have mod : ((word (ofInteger d.size i) % 2 ^ width : Nat) : Int) = i % 2 ^ width := by
        rw [Int.natCast_emod, word_ofInteger, size, Int.natCast_pow]
        exact Int.emod_emod_of_dvd i divides
      have notBool := not_not.mp isBool
      rw [mod, asField, asField, if_pos notBool, if_pos notBool]
      have bmod : (i % 2 ^ width).bmod (2 ^ width) = i.bmod (2 ^ width) := by
        have := Int.emod_bmod (x := i) (n := 2 ^ width)
        rwa [Int.natCast_pow] at this
      rw [bmod, Int.emod_emod_of_dvd i (dvd_refl _)]
    by_cases unsigned : info &&& CTF_UNSIGNED ≠ 0
    · rw [if_pos unsigned]
      apply stored CTUINT32 rfl
      by_cases fp : s.fp = true
      · rw [if_pos fp, bne_iff_ne.mpr unsigned] at isInteger
        exact cconv_I_F v rfl rfl fp isInteger.1 isInteger.2
      · rw [if_neg fp] at isInteger
        rw [isInteger]
        exact cconv_I_I v rfl rfl (Bool.eq_false_of_not_eq_true fp)
    · rw [if_neg unsigned]
      apply stored CTINT32 rfl
      by_cases fp : s.fp = true
      · have signed : (info &&& CTF_UNSIGNED != 0) = false := by
          rw [not_not.mp unsigned]
          rfl
        rw [if_pos fp, signed] at isInteger
        exact cconv_I_F v rfl rfl fp isInteger.1 isInteger.2
      · rw [if_neg fp] at isInteger
        rw [isInteger]
        exact cconv_I_I v rfl rfl (Bool.eq_false_of_not_eq_true fp)

end

end TvmJit
