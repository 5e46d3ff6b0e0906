import TvmJit.Fmt.Format

/-! Integers as `lj_strfmt.c` writes them. -/

namespace TvmJit.Fmt

/-! ## Plain integers -/

/-- `'0' + d` as a character. -/
def digit (d : BitVec 32) : UInt8 := .ofBitVec ((48 + d).setWidth 8)

/-- `WINT_R`: the leading digit of `x`, whose place value is `sc`, and what is left. -/
def WINT_R (x : BitVec 32) (sh sc : Nat) : UInt8 × BitVec 32 :=
  let d := (x * .ofNat 32 ((1 <<< sh + sc - 1) / sc)) >>> sh
  (digit d, x - d * .ofNat 32 sc)

section

variable (u v w : BitVec 32)

/-! The labels of `lj_strfmt_wint`, with what is written from them on. -/

def dig1 : GCstr := [digit u]
def dig2 : GCstr := (WINT_R u 10 10).1 :: dig1 (WINT_R u 10 10).2
def dig3 : GCstr := (WINT_R u 12 100).1 :: dig2 (WINT_R u 12 100).2
def dig4 : GCstr := (WINT_R u 23 1000).1 :: dig3 (WINT_R u 23 1000).2
def dig5 : GCstr := digit v :: dig4 u
def dig6 : GCstr := (WINT_R v 10 10).1 :: dig5 u (WINT_R v 10 10).2
def dig7 : GCstr := (WINT_R v 12 100).1 :: dig6 u (WINT_R v 12 100).2
def dig8 : GCstr := (WINT_R v 23 1000).1 :: dig7 u (WINT_R v 23 1000).2
def dig9 : GCstr := digit w :: dig8 u v
def dig10 : GCstr := (WINT_R w 10 10).1 :: dig9 u v (WINT_R w 10 10).2

/-- The digits of `lj_strfmt_wint`. -/
def wintDigits : GCstr :=
  if u < 10000 then
    if u < 10 then dig1 u
    else if u < 100 then dig2 u
    else if u < 1000 then dig3 u
    else dig4 u
  else
    let v := u / 10000
    let u := u - v * 10000
    if v < 10000 then
      if v < 10 then dig5 u v
      else if v < 100 then dig6 u v
      else if v < 1000 then dig7 u v
      else dig8 u v
    else
      let w := v / 10000
      let v := v - w * 10000
      if w ≥ 10 then dig10 u v w else dig9 u v w

end

def lj_strfmt_wint (k : BitVec 32) : GCstr :=
  if k.toInt < 0 then '-'.toUInt8 :: wintDigits (-k) else wintDigits k

/-! ## Formatted integers -/

/-- The loops `while (width-- > least) *p++ = c`: the characters, and the counter behind them. -/
def padLoop (c : UInt8) (width least : MSize) : GCstr × MSize :=
  if width > least then
    let (s, width) := padLoop c (width - 1) least
    (c :: s, width)
  else ([], width - 1)
termination_by width.toNat
decreasing_by
  have more : least.toNat < width.toNat := by assumption
  have one : (1 : MSize).toNat = 1 := rfl
  rw [BitVec.toNat_sub_of_le (by change (1 : MSize).toNat ≤ _; omega), one]
  omega

/-- The decimal digits of 32 bits. -/
def decLoop (k2 : BitVec 32) (q : GCstr) : GCstr :=
  let q := digit (k2 % 10) :: q
  if k2 / 10 ≠ 0 then decLoop (k2 / 10) q else q
termination_by k2.toNat
decreasing_by
  have some : k2 / 10 ≠ 0 := by assumption
  have ten : (10 : BitVec 32).toNat = 10 := rfl
  have isSome : (k2 / 10).toNat ≠ 0 := fun zero => some (BitVec.eq_of_toNat_eq zero)
  rw [BitVec.toNat_udiv, ten] at *
  omega

/-- The decimal digits of 64 bits. -/
def decimalLoop (k : BitVec 64) (q : GCstr) : GCstr :=
  if k >>> 32 ≠ 0 then decimalLoop (k / 10) (digit ((k % 10).setWidth 32) :: q)
  else decLoop (k.setWidth 32) q
termination_by k.toNat
decreasing_by
  have high : k >>> 32 ≠ 0 := by assumption
  have ten : (10 : BitVec 64).toNat = 10 := rfl
  have isHigh : (k >>> 32).toNat ≠ 0 := fun zero => high (BitVec.eq_of_toNat_eq zero)
  rw [BitVec.toNat_ushiftRight, Nat.shiftRight_eq_div_pow] at isHigh
  rw [BitVec.toNat_udiv, ten]
  omega

/-- `hexdig`. -/
def hexdig (upper : Bool) : GCstr := .ofString (if upper then "0123456789ABCDEF" else "0123456789abcdef")

def hexLoop (upper : Bool) (k : BitVec 64) (q : GCstr) : GCstr :=
  let q := (hexdig upper).getD (k &&& 15).toNat 0 :: q
  if k >>> 4 ≠ 0 then hexLoop upper (k >>> 4) q else q
termination_by k.toNat
decreasing_by
  have some : k >>> 4 ≠ 0 := by assumption
  have isSome : (k >>> 4).toNat ≠ 0 := fun zero => some (BitVec.eq_of_toNat_eq zero)
  rw [BitVec.toNat_ushiftRight, Nat.shiftRight_eq_div_pow] at *
  omega

def octLoop (k : BitVec 64) (q : GCstr) : GCstr :=
  let q := digit ((k &&& 7).setWidth 32) :: q
  if k >>> 3 ≠ 0 then octLoop (k >>> 3) q else q
termination_by k.toNat
decreasing_by
  have some : k >>> 3 ≠ 0 := by assumption
  have isSome : (k >>> 3).toNat ≠ 0 := fun zero => some (BitVec.eq_of_toNat_eq zero)
  rw [BitVec.toNat_ushiftRight, Nat.shiftRight_eq_div_pow] at *
  omega

section

variable (sf : SFormat) (k : BitVec 64)

/-- The magnitude and the sign as it is kept in `prefix`: the character, and its length in the
bits above. -/
def signed : BitVec 64 × MSize :=
  if STRFMT_TYPE sf = STRFMT_INT then
    if k.toInt < 0 then (-k, 256 + 45)
    else if sf &&& STRFMT_F_PLUS ≠ 0 then (k, 256 + 43)
    else if sf &&& STRFMT_F_SPACE ≠ 0 then (k, 256 + 32)
    else (k, 0)
  else (k, 0)

/-- The number in the buffer, and `prefix` with that of a hexadecimal number. -/
def digits (prec pfx : MSize) : GCstr × MSize :=
  if k = 0 then
    if prec ≠ 0 ∨ sf &&& (STRFMT_T_OCT ||| STRFMT_F_ALT) = STRFMT_T_OCT ||| STRFMT_F_ALT then
      (['0'.toUInt8], pfx)
    else ([], pfx)
  else if sf &&& (STRFMT_T_HEX ||| STRFMT_T_OCT) = 0 then (decimalLoop k [], pfx)
  else if sf &&& STRFMT_T_HEX ≠ 0 then
    let upper := sf &&& STRFMT_F_UPPER ≠ 0
    (hexLoop upper k [],
      if sf &&& STRFMT_F_ALT ≠ 0 then 512 + (if upper then 'X'.toUInt8 else 'x'.toUInt8).toBitVec.setWidth 32 else pfx)
  else
    let q := octLoop k []
    (if sf &&& STRFMT_F_ALT ≠ 0 then '0'.toUInt8 :: q else q, pfx)

/-- The characters of `prefix`. -/
def prefixChars (pfx : MSize) : GCstr :=
  if pfx ≠ 0 then
    let c := UInt8.ofBitVec (pfx.setWidth 8)
    if c ≥ 'X'.toUInt8 then ['0'.toUInt8, c] else [c]
  else []

/-- Format number with leading/trailing whitespace and zeros. -/
def layout (prec pprec len width pfx : MSize) (q : GCstr) : GCstr :=
  let (blanks, width) :=
    if sf &&& (STRFMT_F_LEFT ||| STRFMT_F_ZERO) = 0 then padLoop ' '.toUInt8 width pprec else ([], width)
  let (zeros, width) :=
    if sf &&& (STRFMT_F_LEFT ||| STRFMT_F_ZERO) = STRFMT_F_ZERO then padLoop '0'.toUInt8 width pprec
    else ([], width)
  let (more, _) := padLoop '0'.toUInt8 prec len
  let trailing := if sf &&& STRFMT_F_LEFT ≠ 0 then (padLoop ' '.toUInt8 width pprec).1 else []
  blanks ++ prefixChars pfx ++ zeros ++ more ++ q ++ trailing

/-- `lj_strfmt_putfxint`: how much is reserved, and what is written. -/
def lj_strfmt_putfxint : MSize × GCstr :=
  let (k, pfx) := signed sf k
  let prec := STRFMT_PREC sf
  let sf := if prec.toInt ≥ 0 then sf &&& ~~~STRFMT_F_ZERO else sf
  let (q, pfx) := digits sf k prec pfx
  let len : MSize := .ofNat 32 q.length
  let prec := if len.toInt ≥ prec.toInt then len else prec
  let width := STRFMT_WIDTH sf
  let pprec := prec + pfx >>> 8
  let need := if width > pprec then width else pprec
  (need, layout sf prec pprec len width pfx q)

end

end TvmJit.Fmt
