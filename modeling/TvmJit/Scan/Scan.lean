import TvmJit.Scan.Bases

/-! `lj_strscan_scan`. -/

namespace TvmJit.Scan

/-- Parse "inf", "infinity" or "nan", where anything else that is not a number is one too as far as
the text ends there. -/
def scanNonNumber (p : GCstr) (o : TValue) (neg : Bool) : StrScanFmt × TValue :=
  let at' (i : Nat) := peek (p.drop i)
  let (tmp, p) : TValue × GCstr :=
    if casecmp (at' 0) 'i' ∧ casecmp (at' 1) 'n' ∧ casecmp (at' 2) 'f' then
      (if neg then 0xfff0000000000000 else 0x7ff0000000000000,
        if casecmp (at' 3) 'i' ∧ casecmp (at' 4) 'n' ∧ casecmp (at' 5) 'i' ∧ casecmp (at' 6) 't' ∧ casecmp (at' 7) 'y'
        then p.drop 8 else p.drop 3)
    else if casecmp (at' 0) 'n' ∧ casecmp (at' 1) 'a' ∧ casecmp (at' 2) 'n' then (0xfff8000000000000, p.drop 3)
    else (0xfff8000000000000, p)
  if peek (p.dropWhile lj_char_isspace) ≠ 0 then (.error, o) else (.num, tmp)

/-- Skip leading zeros: what is behind them, whether there were digits, and the decimal point. -/
def skipZeros : GCstr → Bool → Option GCstr → Option (GCstr × Bool × Option GCstr)
  | c :: p, hasdig, dp =>
      if c = '0'.toUInt8 then skipZeros p true dp
      else if c = '.'.toUInt8 then if dp.isSome then none else skipZeros p hasdig (some (c :: p))
      else some (c :: p, hasdig, dp)
  | [], hasdig, dp => some ([], hasdig, dp)

/-- Preliminary digit and decimal point scan. -/
def scanDigits (isDigit : UInt8 → Bool) : GCstr → Option GCstr → BitVec 32 → Nat →
    Option (GCstr × Option GCstr × BitVec 32 × Nat)
  | c :: p, dp, x, dig =>
      if isDigit c then scanDigits isDigit p dp (x * 10 + (c &&& 15).toBitVec.setWidth 32) (dig + 1)
      else if c = '.'.toUInt8 then if dp.isSome then none else scanDigits isDigit p (some (c :: p)) x dig
      else some (c :: p, dp, x, dig)
  | [], dp, x, dig => some ([], dp, x, dig)

/-- Handle decimal point: the exponent, and the digits without trailing zeros. -/
def decimalPoint (dp p : GCstr) (base dig : Nat) : Int × Nat :=
  if dig = 0 then (0, dig)
  else
    let fraction := dp.tail.take (dp.tail.length - p.length)
    let zeros := (fraction.reverse.takeWhile (· = '0'.toUInt8)).length
    let ex : Int := zeros - fraction.length
    (if base = 16 then ex * 4 else ex, dig - zeros)

/-- Parse exponent. -/
def scanExponent (p : GCstr) : Option (GCstr × Int) :=
  let (negx, p) := if peek p = '+'.toUInt8 ∨ peek p = '-'.toUInt8 then (peek p == '-'.toUInt8, p.tail) else (false, p)
  if ¬lj_char_isdigit (peek p) then none
  else
    let xx := (p.takeWhile lj_char_isdigit).foldl
      (fun (xx : Nat) c => if xx < 65536 then xx * 10 + (c &&& 15).toNat else xx) 0
    some (p.dropWhile lj_char_isdigit, if negx then -(xx : Int) else xx)

section

variable (long64 : Bool) (opt : Options)

/-- Parse suffix, with `sizeof(long) == 8` where `long64`:
I (IMAG), U (U32), LL (I64), ULL/LLU (U64), L (long), UL/LU (ulong). -/
def scanSuffix (p : GCstr) (fmt : StrScanFmt) : Option StrScanFmt := do
  if peek p = 0 then return fmt
  let (p, fmt) ←
    if casecmp (peek p) 'i' then
      if opt.has STRSCAN_OPT_IMAG then some (p.tail, .imag) else none
    else if fmt = .int then do
      let (p, fmt) := if casecmp (peek p) 'u' then (p.tail, .u32) else (p, fmt)
      let (p, fmt) ←
        if casecmp (peek p) 'l' then
          if casecmp (peek p.tail) 'l' then some (p.tail.tail, fmt.add 2)
          else if ¬opt.has STRSCAN_OPT_C then none
          else some (p.tail, if long64 then fmt.add 2 else fmt)
        else some (p, fmt)
      let (p, fmt) :=
        if casecmp (peek p) 'u' ∧ (fmt = .int ∨ fmt = .i64) then (p.tail, fmt.add 1) else (p, fmt)
      if fmt = .u32 ∧ ¬opt.has STRSCAN_OPT_C ∨ fmt.toNat ≥ StrScanFmt.i64.toNat ∧ ¬opt.has STRSCAN_OPT_LL then none
      else some (p, fmt)
    else some (p, fmt)
  if peek (p.dropWhile lj_char_isspace) ≠ 0 then none else some fmt

/-- Try to convert number to integer, if requested. -/
def convertInteger (r : StrScanFmt × TValue) : StrScanFmt × TValue :=
  if r.1 = .num ∧ opt.has STRSCAN_OPT_TOINT then
    let i := Num.num2int r.2
    if Num.eq r.2 (Num.ofInt i) then (.int, r.2.setI (.ofInt 32 i)) else r
  else r

/-- Fast path for decimal 32 bit integers, or the parser for the base. -/
def dispatch (sp : GCstr) (o : TValue) (fmt : StrScanFmt) (base : Nat) (ex : Int) (neg : Bool) (x : BitVec 32)
    (dig : Nat) : StrScanFmt × TValue :=
  if fmt = .int ∧ base = 10 ∧ (dig < 10 ∨ dig = 10 ∧ peek sp ≤ '2'.toUInt8 ∧ x.setWidth 64 < limit neg) then
    let y := negated neg x
    if opt.has STRSCAN_OPT_TONUM then (.num, Num.ofInt y.toInt) else (.int, o.setI y)
  else if base = 0 ∧ ¬(fmt = .num ∨ fmt = .imag) then strscan_oct sp o fmt neg dig
  else
    convertInteger opt (
      if base = 16 then strscan_hex sp o fmt opt ex neg dig
      else if base = 2 then strscan_bin sp o fmt opt ex neg dig
      else strscan_dec sp o fmt opt ex neg dig)

/-- Determine base and skip leading zeros. -/
def scanBase (p : GCstr) : Option (Nat × GCstr × Bool × Option GCstr) :=
  let base := if opt.has STRSCAN_OPT_C ∧ peek p = '0'.toUInt8 then 0 else 10
  if peek p ≤ '0'.toUInt8 then do
    let (base, p) :=
      if peek p = '0'.toUInt8 then
        if casecmp (peek p.tail) 'x' then (16, p.drop 2)
        else if casecmp (peek p.tail) 'b' then (2, p.drop 2)
        else (base, p)
      else (base, p)
    let (p, hasdig, dp) ← skipZeros p false none
    return (base, p, hasdig, dp)
  else return (base, p, false, none)

/-- Parse regular number. -/
def scanNumber (p : GCstr) (o : TValue) (neg : Bool) : StrScanFmt × TValue :=
  let result : Option (StrScanFmt × TValue) := do
    let (base, sp, hasdig, dp) ← scanBase opt p
    let (p, dp, x, dig) ← scanDigits (if base = 16 then lj_char_isxdigit else lj_char_isdigit) sp dp 0 0
    if ¬(hasdig ∨ dig ≠ 0) then none
    let (fmt, ex, dig) : StrScanFmt × Int × Nat :=
      match dp with
      | some dp => (.num, decimalPoint dp p base dig)
      | none => (.int, 0, dig)
    let (p, fmt, ex) ←
      if base ≥ 10 ∧ casecmp (peek p) (if base = 16 then 'p' else 'e') then
        (scanExponent p.tail).map fun (p, xx) => (p, StrScanFmt.num, ex + xx)
      else some (p, fmt, ex)
    let fmt ← scanSuffix long64 opt p fmt
    return dispatch opt sp o fmt base ex neg x dig
  result.getD (.error, o)

/-- Scan string containing a number. Returns format. Returns value in `o`. -/
def lj_strscan_scan (p : GCstr) (o : TValue) : StrScanFmt × TValue :=
  if ¬lj_char_isdigit (peek p) then
    let p := p.dropWhile lj_char_isspace
    let (neg, p) := if peek p = '+'.toUInt8 ∨ peek p = '-'.toUInt8 then (peek p == '-'.toUInt8, p.tail) else (false, p)
    if peek p ≥ 'A'.toUInt8 then scanNonNumber p o neg else scanNumber long64 opt p o neg
  else scanNumber long64 opt p o false

end

end TvmJit.Scan
