import TvmJit.Scan.Formats
import Mathlib.Logic.Function.Basic
import Mathlib.Tactic.Common

/-! The parsers for the bases. Counters of digits and exponents are unbounded here; in C they have
32 bits, which no text in memory exceeds. -/

namespace TvmJit.Scan

section

variable (p : GCstr) (o : TValue) (fmt : StrScanFmt) (opt : Options)

/-! ## Hexadecimal numbers -/

/-- Scan hex digits. -/
def hexDigits : Nat → BitVec 64 → GCstr → BitVec 64 × GCstr
  | 0, x, p => (x, p)
  | i + 1, x, p =>
      let (c, p) := next p
      let d := c.toBitVec.setWidth 64
      let d := if c > '9'.toUInt8 then d + 9 else d
      hexDigits i (x <<< 4 + (d &&& 15)) p

/-- Summarize rounding-effect of excess digits. -/
def excessHex : Nat → BitVec 64 → Int → GCstr → BitVec 64 × Int
  | 0, x, ex2, _ => (x, ex2)
  | i + 1, x, ex2, p =>
      let (c, p) := next p
      excessHex i (x ||| if c ≠ '0'.toUInt8 then 1 else 0) (ex2 + 4) p

/-- Parse hexadecimal number. -/
def strscan_hex (ex2 : Int) (neg : Bool) (dig : Nat) : StrScanFmt × TValue :=
  let (x, p) := hexDigits (if dig > 16 then 16 else dig) 0 p
  let (x, ex2) := excessHex (dig - 16) x ex2 p
  (formatInteger opt fmt neg (dig ≤ 8) (dig ≤ 16) x o).elim id fun fmt => (fmt, reduced x ex2 neg)

/-! ## Octal numbers -/

/-- Scan octal digits. -/
def octDigits : Nat → BitVec 64 → GCstr → Option (BitVec 64)
  | 0, x, _ => some x
  | dig + 1, x, p =>
      if ¬(peek p ≥ '0'.toUInt8 ∧ peek p ≤ '7'.toUInt8) then none
      else octDigits dig (x <<< 3 + ((peek p).toBitVec.setWidth 64 &&& 7)) p.tail

/-- Parse octal number. -/
def strscan_oct (neg : Bool) (dig : Nat) : StrScanFmt × TValue :=
  if dig > 22 ∨ dig = 22 ∧ peek p > '1'.toUInt8 then (.error, o)
  else
    match octDigits dig 0 p with
    | none => (.error, o)
    | some x =>
        match fmt with
        | .int | .u32 =>
            let fmt := if fmt = .int ∧ x ≥ limit neg then .u32 else fmt
            if x >>> 32 ≠ 0 then (.error, o) else (fmt, o.setI (negated neg (x.setWidth 32)))
        | fmt => (fmt, negated neg x)

/-! ## Binary numbers -/

/-- Scan binary digits. -/
def binDigits : Nat → BitVec 64 → GCstr → Option (BitVec 64)
  | 0, x, _ => some x
  | i + 1, x, p =>
      if peek p &&& ~~~1 ≠ '0'.toUInt8 then none
      else binDigits i (x <<< 1 ||| ((peek p).toBitVec.setWidth 64 &&& 1)) p.tail

/-- Parse binary number. -/
def strscan_bin (ex2 : Int) (neg : Bool) (dig : Nat) : StrScanFmt × TValue :=
  if ex2 ≠ 0 ∨ dig > 64 then (.error, o)
  else
    match binDigits dig 0 p with
    | none => (.error, o)
    | some x => (formatInteger opt fmt neg (dig ≤ 32) true x o).elim id fun fmt => (fmt, reduced x ex2 neg)

end

/-! ## Decimal numbers -/

def STRSCAN_MAXDIG : Nat := 800

/-- Scan aligned double-digits, with the trailing digit that is left over. -/
def doubleDigits : Nat → GCstr → GCstr × Nat × GCstr
  | i + 2, p =>
      let (c, p) := next p
      let (c', p) := next p
      let (xi, i, p) := doubleDigits i p
      ((10 * (c &&& 15) + (c' &&& 15)) :: xi, i, p)
  | i, p => ([], i, p)

/-- Some excess digit is not 0. -/
def excessDec : Nat → GCstr → Bool
  | 0, _ => false
  | dig + 1, p =>
      let (c, p) := next p
      if c ≠ '0'.toUInt8 then true else excessDec dig p

/-- Simplify exponent. -/
def simplifyExponent (xi : GCstr) (ex10 : Int) (dig : Nat) : GCstr × Int × Nat :=
  if ex10 > 0 ∧ dig ≤ 18 then simplifyExponent (xi ++ [0]) (ex10 - 2) (dig + 2) else (xi, ex10, dig)
termination_by 19 - dig

/-- The digits in base 100, with the exponent and the number of digits that are left. -/
def decDigits (p : GCstr) (ex10 : Int) (dig : Nat) : GCstr × Int × Nat :=
  if dig = 0 then ([0], 0, 0)
  else
    let (ex10, i) := if dig > STRSCAN_MAXDIG then (ex10 + (dig - STRSCAN_MAXDIG : Nat), STRSCAN_MAXDIG) else (ex10, dig)
    -- Scan unaligned leading digit.
    let (leading, i, p) :=
      if (ex10 + i) % 2 ≠ 0 then
        let (c, p) := next p
        ([c &&& 15], i - 1, p)
      else ([], i, p)
    let (xi, i, p) := doubleDigits i p
    -- Scan and realign trailing digit.
    let (trailing, ex10, dig, p) :=
      if i ≠ 0 then
        let (c, p) := next p
        ([10 * (c &&& 15)], ex10 - 1, dig + 1, p)
      else ([], ex10, dig, p)
    let xi := leading ++ xi ++ trailing
    if dig > STRSCAN_MAXDIG then
      (if excessDec (dig - STRSCAN_MAXDIG) p then xi.modifyLast (· ||| 1) else xi, ex10, STRSCAN_MAXDIG)
    else simplifyExponent xi ex10 dig

/-! The circular buffer, in base 100. -/

abbrev Index := BitVec 9

def DNEXT (a : Index) : Index := a + 1
def DPREV (a : Index) : Index := a - 1
def DLEN (lo hi : Index) : Nat := (lo - hi).toNat

/-- The buffer from `hi` up to `lo`, with the number of digits of the integer part. -/
structure Digits where
  xi : Index → UInt8
  hi : Index
  lo : Index
  idig : Int
  ex2 : Int

/-- Multiply by 64, from the last digit on: the digits, the last one that is not 0, and the carry. -/
def upLoop (xi : Index → UInt8) (hi lo i : Index) (cy : Nat) : (Index → UInt8) × Index × Nat :=
  let d := (xi i).toNat <<< 6 + cy
  let cy := (d >>> 2 * 5243) >>> 17
  let d := d - cy * 100
  let xi := Function.update xi i (.ofNat d)
  if i = hi then (xi, lo, cy)
  else upLoop xi hi (if d = 0 ∧ i = DPREV lo then i else lo) (DPREV i) cy
termination_by (i - hi).toNat
decreasing_by
  have more : i ≠ hi := by assumption
  rw [DPREV]
  bv_omega

/-- One round of scaling up. -/
def scaleUp (n : Digits) : Digits :=
  let (xi, lo, cy) := upLoop n.xi n.hi n.lo (DPREV n.lo) 0
  if cy ≠ 0 then
    let hi := DPREV n.hi
    let (xi, lo) :=
      if xi (DPREV lo) = 0 then (xi, DPREV lo)
      else if hi = lo then
        let lo := DPREV lo
        (Function.update xi (DPREV lo) (xi (DPREV lo) ||| xi lo), lo)
      else (xi, lo)
    { xi := Function.update xi hi (.ofNat cy), hi, lo, idig := n.idig + 1, ex2 := n.ex2 - 6 }
  else { n with xi, lo, ex2 := n.ex2 - 6 }

/-- Divide by 64, from the first digit on: the digits, the first one, the number of digits of the
integer part and the carry. -/
def downLoop (xi : Index → UInt8) (hi lo i : Index) (idig : Int) (cy : Nat) :
    (Index → UInt8) × Index × Int × Nat :=
  let cy := cy + (xi i).toNat
  let xi := Function.update xi i (.ofNat (cy >>> 6))
  let cy := 100 * (cy &&& 0x3f)
  let (hi, idig) := if xi i = 0 ∧ i = hi then (DNEXT hi, idig - 1) else (hi, idig)
  if DNEXT i ≠ lo then downLoop xi hi lo (DNEXT i) idig cy else (xi, hi, idig, cy)
termination_by (lo - i - 1).toNat
decreasing_by
  have more : DNEXT i ≠ lo := by assumption
  rw [DNEXT] at *
  bv_omega

/-- The digits of the carry, as far as there is room. -/
def carryLoop (xi : Index → UInt8) (hi lo : Index) (cy : Nat) : (Index → UInt8) × Index :=
  if cy ≠ 0 then
    if hi = lo then (Function.update xi (DPREV lo) (xi (DPREV lo) ||| 1), lo)
    else carryLoop (Function.update xi lo (.ofNat (cy >>> 6))) hi (DNEXT lo) (100 * (cy &&& 0x3f))
  else (xi, lo)
termination_by (hi - lo).toNat
decreasing_by
  have more : ¬hi = lo := by assumption
  rw [DNEXT]
  bv_omega

/-- One round of scaling down. -/
def scaleDown (n : Digits) : Digits :=
  let (xi, hi, idig, cy) := downLoop n.xi n.hi n.lo n.hi n.idig 0
  let (xi, lo) := carryLoop xi hi n.lo cy
  { xi, hi, lo, idig, ex2 := n.ex2 + 6 }

/-- Scale up until we have at least 17 or 18 integer part digits. The integer part gets another
digit at least every other round. -/
def scaleUpLoop : Nat → Digits → Digits
  | 0, n => n
  | fuel + 1, n => if n.idig < 9 ∧ n.idig < DLEN n.lo n.hi then scaleUpLoop fuel (scaleUp n) else n

/-- Scale down until no more than 17 or 18 integer part digits remain. The integer part loses a
digit at least every other round. -/
def scaleDownLoop : Nat → Digits → Digits
  | 0, n => n
  | fuel + 1, n => if n.idig > 9 then scaleDownLoop fuel (scaleDown n) else n

/-- Collect integer part digits. -/
def collectLoop (xi : Index → UInt8) (lo : Index) (x : BitVec 64) (i : Index) (idig : Int) : BitVec 64 × Index × Int :=
  if idig - 1 > 0 ∧ i ≠ lo then
    collectLoop xi lo (x * 100 + (xi i).toBitVec.setWidth 64) (DNEXT i) (idig - 1)
  else (x, i, idig - 1)
termination_by idig.toNat

/-- `while (--idig >= 0) x = x * 100`. -/
def hundreds (x : BitVec 64) (idig : Int) : BitVec 64 := if idig - 1 ≥ 0 then hundreds (x * 100) (idig - 1) else x
termination_by idig.toNat

/-- Gather round bit from remaining digits. -/
def roundBit (xi : Index → UInt8) (lo i : Index) : Bool :=
  if xi i ≠ 0 then true else if DNEXT i ≠ lo then roundBit xi lo (DNEXT i) else false
termination_by (lo - i - 1).toNat
decreasing_by
  have more : DNEXT i ≠ lo := by assumption
  rw [DNEXT] at *
  bv_omega

/-- Convert the integer part to a rescaled double. -/
def collect (n : Digits) (neg : Bool) : Num :=
  let (x, i, idig) := collectLoop n.xi n.lo ((n.xi n.hi).toBitVec.setWidth 64) (DNEXT n.hi) n.idig
  if i = n.lo then strscan_double (hundreds x idig) n.ex2 neg
  else
    let x := x <<< 1
    strscan_double (if roundBit n.xi n.lo i then x ||| 1 else x) (n.ex2 - 1) neg

/-- Slow non-integer path: the conversion. -/
def slowPath (xi : GCstr) (ex10 : Int) (neg : Bool) : Num :=
  let idig : Int := xi.length + ex10 / 2
  if idig > 155 then if neg then 0xfff0000000000000 else 0x7ff0000000000000
  else if idig < -163 then if neg then 0x8000000000000000 else 0
  else
    let n : Digits := { xi := fun a => xi.getD a.toNat 0, hi := 0, lo := .ofNat 9 xi.length, idig, ex2 := 0 }
    collect (scaleDownLoop 512 (scaleUpLoop 512 n)) neg

/-- Slow non-integer path: the checks of the format in front of a conversion to `n`. -/
def slowFormat (o : TValue) (opt : Options) (n : Num) : StrScanFmt → StrScanFmt × TValue
  | .int => if opt.has STRSCAN_OPT_C then (.error, o) else (.num, n)
  | .u32 | .i64 | .u64 => (.error, o)
  | fmt => (fmt, n)

/-- Parse decimal number. -/
def strscan_dec (p : GCstr) (o : TValue) (fmt : StrScanFmt) (opt : Options) (ex10 : Int) (neg : Bool) (dig : Nat) :
    StrScanFmt × TValue :=
  let (xi, ex10, dig) := decDigits p ex10 dig
  let slow := slowFormat o opt (slowPath xi ex10 neg)
  -- Fast path for numbers in integer format (but handles e.g. 1e6, too).
  if dig ≤ 20 ∧ ex10 = 0 then
    let first := xi.headD 0
    let x := xi.tail.foldl (fun x d => x * 100 + d.toBitVec.setWidth 64) (first.toBitVec.setWidth 64)
    if ¬(dig = 20 ∧ (first > 18 ∨ x.toInt ≥ 0)) then
      (formatInteger opt fmt neg (x >>> 32 = 0) true x o).elim id fun fmt =>
        if x.toInt < 0 then slow fmt else (fmt, toDouble x neg)
    else slow fmt
  else slow fmt

end TvmJit.Scan
