import TvmJit.Foundation.Binary
import TvmJit.Foundation.Bytes
import TvmJit.Ffi.Ctype

/-! Conversions between C number types in the interpreter: the rows of `lj_cconv_ct_ct` for
booleans, integers and floating-point numbers, on a little-endian machine. -/

namespace TvmJit

open Foundation

/-- A number type with one of the sizes that both tables of conversions assert. -/
structure CNumber where
  info : CTInfo
  size : Nat
  isnum : ctype_isnum info
  plain : info &&& CTF_BOOL = 0 ∨ info &&& CTF_FP = 0
  sized : size = 1 ∨ size = 2 ∨ size = 4 ∨ size = 8
  boolSize : info &&& CTF_BOOL ≠ 0 → size = 1 ∨ size = 4
  fpSize : info &&& CTF_FP ≠ 0 → size = 4 ∨ size = 8

namespace CNumber

variable (d : CNumber)

def bool : Bool := d.info &&& CTF_BOOL != 0
def fp : Bool := d.info &&& CTF_FP != 0
def unsigned : Bool := d.info &&& CTF_UNSIGNED != 0

/-- The format of a floating-point type. -/
def format : Format := if d.size = 8 then binary64 else binary32

end CNumber

/-- The bytes of a value of a number type. A boolean is normalized. -/
structure CValue (s : CNumber) where
  bytes : List UInt8
  length : bytes.length = s.size
  normalized : s.bool → word bytes ≤ 1

/-! ## Compressed type index -/

def CCX_B : Nat := 0
def CCX_I : Nat := 1
def CCX_F : Nat := 2

def cconv_idx (info : CTInfo) : Nat :=
  let idx := ((info >>> 26) &&& 15).toNat
  ((0xf436fff5fff7f021#64 >>> (4 * idx)) &&& 15).toNat

/-! ## Casts -/

/-- The integers of a type. -/
def InRange (unsigned : Bool) (bits : Nat) (i : Int) : Prop :=
  if unsigned then 0 ≤ i ∧ i < 2 ^ bits else -2 ^ (bits - 1) ≤ i ∧ i < 2 ^ (bits - 1)

instance (unsigned : Bool) (bits : Nat) (i : Int) : Decidable (InRange unsigned bits i) := by
  unfold InRange
  infer_instance

/-- The cast of a double to an integer type, undefined when the integer does not fit. -/
def castInt (unsigned : Bool) (bits : Nat) (n : Nat) : Option Int := do
  let i ← (binary64.decode n).toInt
  if InRange unsigned bits i then some i else none

/-- The word of a double, converted from the source. There is no `long double`. -/
def sourceDouble (ssize : Nat) (sp : List UInt8) : Option Nat :=
  if ssize = 8 then some (word sp)
  else if ssize = 4 then some (binary64.convert binary32 (word sp))
  else none

/-- A double, stored as the destination. -/
def storeDouble (dsize n : Nat) : Option (List UInt8) :=
  if dsize = 8 then some (ofWord 8 n)
  else if dsize = 4 then some (ofWord 4 (binary32.convert binary64 n))
  else none

/-! ## The table of conversions -/

/-- `if (dsize == 1) *dp = b; else *(int *)dp = b;` -/
def storeBool (dsize : Nat) (b : UInt8) : List UInt8 :=
  if dsize = 1 then [b] else ofInteger 4 b.toNat

def conv_I_I (d s : CNumber) (sp : List UInt8) : List UInt8 :=
  if d.size > s.size then  -- Zero-extend or sign-extend LSB.
    let fill := if !s.unsigned && sp.getLastD 0 &&& 0x80 != 0 then 0xff else 0
    sp ++ List.replicate (d.size - s.size) fill
  else sp.take d.size  -- Copy LSB.

def conv_I_F (d : CNumber) (n : Nat) : Option (List UInt8) :=
  if d.size < 4 ∨ d.size = 4 ∧ !d.unsigned then do
    let i ← castInt false 32 n
    if d.size = 4 then return ofInteger 4 i
    else if d.size = 2 then return ofInteger 2 i
    else return ofInteger 1 i
  else if d.size = 4 then do
    let i ← castInt true 32 n
    return ofInteger 4 i
  else if d.size = 8 then
    if !d.unsigned then do
      let i ← castInt false 64 n
      return ofInteger 8 i
    else do
      let i ← castInt true 64 n  -- `lj_num2u64`.
      return ofInteger 8 i
  else none

def conv_F_I (s : CNumber) (sp : List UInt8) : Option Nat :=
  if s.size < 4 ∨ s.size = 4 ∧ !s.unsigned then
    let i :=
      if s.size = 4 then signedWord sp
      else if !s.unsigned then signedWord sp
      else word sp
    some (binary64.ofInt i)
  else if s.size = 4 then some (binary64.ofInt (word sp))
  else if s.size = 8 then
    if !s.unsigned then some (binary64.ofInt (signedWord sp)) else some (binary64.ofInt (word sp))
  else none

/-- The rows and columns of number types. Nothing for an error and for a cast that is not
defined. -/
def lj_cconv_ct_ct (d s : CNumber) (sp : List UInt8) : Option (List UInt8) :=
  let row := cconv_idx d.info
  let column := cconv_idx s.info
  if row = CCX_B then
    if column = CCX_B then
      -- Source operand is already normalized.
      some (storeBool d.size (sp.headD 0))
    else if column = CCX_I then
      let b := sp.foldl (· ||| ·) 0
      some (storeBool d.size (if b != 0 then 1 else 0))
    else if s.size = 8 then
      some (storeBool d.size (if (binary64.decode (word sp)).isZero then 0 else 1))
    else if s.size = 4 then
      some (storeBool d.size (if (binary32.decode (word sp)).isZero then 0 else 1))
    else none
  else if row = CCX_I then
    if column = CCX_B ∨ column = CCX_I then some (conv_I_I d s sp)
    else do
      let n ← sourceDouble s.size sp
      conv_I_F d n
  else if column = CCX_B ∨ column = CCX_I then do
    let n ← conv_F_I s sp
    storeDouble d.size n
  else if s.size = d.size then some (sp.take d.size)  -- `goto copyval`.
  else do
    let n ← sourceDouble s.size sp
    storeDouble d.size n

end TvmJit
