import TvmJit.Token
import TvmJit.Number
import TvmJit.Foundation.Binary

/-! What `lj_strscan_scan` returns and stores: formats, integers and doubles. -/

namespace TvmJit.Scan

open Foundation

/-- Returned format. -/
inductive StrScanFmt
  | error | num | imag | int | u32 | i64 | u64
  deriving DecidableEq

namespace StrScanFmt

def toNat : StrScanFmt → Nat
  | error => 0
  | num => 1
  | imag => 2
  | int => 3
  | u32 => 4
  | i64 => 5
  | u64 => 6

/-- The format that is `n` behind, or the last one. -/
def add (fmt : StrScanFmt) (n : Nat) : StrScanFmt :=
  match fmt.toNat + n with
  | 0 => error
  | 1 => num
  | 2 => imag
  | 3 => int
  | 4 => u32
  | 5 => i64
  | _ => u64

end StrScanFmt

/-- Options for accepted and returned formats. -/
abbrev Options := BitVec 32

def STRSCAN_OPT_TOINT : Options := 0x01
def STRSCAN_OPT_TONUM : Options := 0x02
def STRSCAN_OPT_IMAG : Options := 0x04
def STRSCAN_OPT_LL : Options := 0x08
def STRSCAN_OPT_C : Options := 0x10

/-- `opt & flag`. -/
def Options.has (opt : Options) (flag : Options) : Bool := opt &&& flag ≠ 0

/-- The value that is stored, as its `u64`. -/
abbrev TValue := BitVec 64

/-- `o->i = i`, which leaves the upper half. -/
def TValue.setI (o : TValue) (i : BitVec 32) : TValue := o.extractLsb' 32 32 ++ i

@[simp] theorem TValue.setI_low (o : TValue) (i : BitVec 32) : (o.setI i).setWidth 32 = i := by
  rw [setI, BitVec.setWidth_append, dif_pos (Nat.le_refl 32), BitVec.setWidth_eq]

/-- `neg ? -x : x`. -/
def negated {w : Nat} (neg : Bool) (x : BitVec w) : BitVec w := if neg then -x else x

/-- `0x80000000u+neg`. -/
def limit (neg : Bool) : BitVec 64 := if neg then 0x80000001 else 0x80000000

/-- Format-specific handling: what is returned and stored, or the format of a number that is
converted to a double. -/
def formatInteger (opt : Options) (fmt : StrScanFmt) (neg fits32 fits64 : Bool) (x : BitVec 64) (o : TValue) :
    (StrScanFmt × TValue) ⊕ StrScanFmt :=
  let unsigned := if fits32 then (.u32, o.setI (negated neg (x.setWidth 32))) else (.error, o)
  match fmt with
  | .int =>
      if ¬opt.has STRSCAN_OPT_TONUM ∧ x < limit neg then .inl (.int, o.setI (negated neg (x.setWidth 32)))
      else if ¬opt.has STRSCAN_OPT_C then .inr .num
      else .inl unsigned
  | .u32 => .inl unsigned
  | .i64 | .u64 => .inl (if fits64 then (fmt, negated neg x) else (.error, o))
  | fmt => .inr fmt

/-! ## Characters -/

/-- `lj_char_isdigit`. -/
def lj_char_isdigit (c : UInt8) : Bool := '0'.toUInt8 ≤ c && c ≤ '9'.toUInt8

/-- `lj_char_isxdigit`. -/
def lj_char_isxdigit (c : UInt8) : Bool :=
  lj_char_isdigit c || 'a'.toUInt8 ≤ c && c ≤ 'f'.toUInt8 || 'A'.toUInt8 ≤ c && c ≤ 'F'.toUInt8

/-- `lj_char_isspace`. -/
def lj_char_isspace (c : UInt8) : Bool := c == 32 || 9 ≤ c && c ≤ 13

/-- `casecmp`. -/
def casecmp (c : UInt8) (k : Char) : Bool := c ||| 0x20 == k.toUInt8

/-- `*p`, which is 0 behind the text. -/
def peek (p : GCstr) : UInt8 := p.headD 0

/-- `*p != '.' ? *p : *++p`, and what is behind it. -/
def next (p : GCstr) : UInt8 × GCstr :=
  if peek p ≠ '.'.toUInt8 then (peek p, p.tail) else (peek p.tail, p.tail.tail)

/-! ## Doubles -/

/-- `ldexp`. -/
def ldexp (n : Num) (ex : Int) : Num :=
  match binary64.decode n.toNat with
  | .finite negative m e => .ofNat 64 (binary64.encode negative (binary64.magnitude m (e + ex)))
  | _ => n

/-- `(double)(int64_t)x`, with the sign. -/
def toDouble (x : BitVec 64) (neg : Bool) : Num :=
  let n := BitVec.ofNat 64 (binary64.ofInt x.toInt)
  if neg then Num.flipSign n else n

/-- Final conversion to double. -/
def strscan_double (x : BitVec 64) (ex2 : Int) (neg : Bool) : Num :=
  let x :=
    -- Avoid double rounding for denormals.
    if ex2 ≤ -1075 ∧ x ≠ 0 then
      let b : Int := x.toNat.log2
      if b + ex2 ≤ -1023 ∧ b + ex2 ≥ -1075 then
        let rb : BitVec 64 := 1 <<< (-1075 - ex2).toNat
        let x := if x &&& rb ≠ 0 ∧ x &&& (rb + rb + rb - 1) ≠ 0 then x + (rb + rb) else x
        x &&& ~~~(rb + rb - 1)
      else x
    else x
  let n := toDouble x neg
  if ex2 ≠ 0 then ldexp n ex2 else n

/-- Reduce range, then convert to double. -/
def reduced (x : BitVec 64) (ex2 : Int) (neg : Bool) : Num :=
  if x &&& 0xc000000000000000 ≠ 0 then strscan_double (x >>> 2 ||| x &&& 3) (ex2 + 2) neg
  else strscan_double x ex2 neg

end TvmJit.Scan
