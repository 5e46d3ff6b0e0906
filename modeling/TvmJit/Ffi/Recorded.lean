import TvmJit.Ffi.Convert

/-! Conversions between C number types on a trace: `crec_ct_ct` and the meaning of the
instructions that it emits. An operand is the tree of the instructions below it. -/

namespace TvmJit

open Foundation

/-- Result types of instructions that load, store or convert C numbers. -/
inductive IRType
  | cdata | float | num | i8 | u8 | i16 | u16 | int | u32 | i64 | u64
  deriving DecidableEq, Repr

namespace IRType

/-- `lj_ir_type_size`. -/
def size : IRType → Nat
  | i8 | u8 => 1
  | i16 | u16 => 2
  | int | u32 | float => 4
  | cdata | i64 | u64 | num => 8

def isFp : IRType → Bool
  | float | num => true
  | _ => false

def is64 : IRType → Bool
  | i64 | u64 => true
  | _ => false

def isUnsigned : IRType → Bool
  | u8 | u16 | u32 | u64 => true
  | _ => false

def format : IRType → Format
  | num => binary64
  | _ => binary32

/-- The bits of the result: all integers below 64 bits are held in 32. -/
def bits (t : IRType) : Nat := if t.is64 then 64 else 32

/-- `IRT_I8 + 2 * b + 1` for an unsigned type. -/
def ofFls : Nat → Bool → IRType
  | 0, false => i8
  | 0, true => u8
  | 1, false => i16
  | 1, true => u16
  | 2, false => int
  | 2, true => u32
  | 3, false => i64
  | 3, true => u64
  | _, _ => cdata

end IRType

inductive Arith
  | add | sub | mul
  deriving DecidableEq

/-- An operand: a constant, a load of the source, a conversion, 32-bit integer arithmetic with or
without a check for overflow, or any other instruction, by its number. -/
inductive TRef
  | kint (i : Int)
  | xload (t : IRType)
  | other (ref : Nat)
  | conv (a : TRef) (dt st : IRType) (sext any : Bool)
  | arith (o : Arith) (ov : Bool) (a b : TRef)

/-! ## What instructions compute -/

/-- What a trace meets when it runs: the bytes of the source and the results of other
instructions. -/
structure TraceRun where
  source : List UInt8
  result : Nat → Nat

/-- The low bits of an integer, as a register has them. -/
def register (bits : Nat) (i : Int) : Nat := (i % 2 ^ bits).toNat

/-- The integer that a register stands for at a type. -/
def registerInt (t : IRType) (v : Nat) : Int :=
  if t.isUnsigned then v % 2 ^ (8 * t.size) else (v : Int).bmod (2 ^ (8 * t.size))

/-- `XLOAD`: narrow integers are extended to 32 bits. -/
def xloadValue (t : IRType) (bytes : List UInt8) : Nat :=
  if t.isFp then word bytes else register t.bits (integer t.isUnsigned bytes)

/-- `XSTORE`. -/
def xstoreBytes (t : IRType) (v : Nat) : List UInt8 := ofWord t.size v

/-- `CONV`. The upper half of a register with a 32-bit result is zero. A number that has no
integer part converts to nothing in particular. -/
def convValue (dt st : IRType) (sext : Bool) (v : Nat) : Nat :=
  if dt.isFp then
    if st.isFp then dt.format.convert st.format v else dt.format.ofInt (registerInt st v)
  else if st.isFp then register dt.bits ((st.format.decode v).toInt.getD 0)
  else if dt.is64 && !st.is64 then
    if sext then register 64 ((v : Int).bmod (2 ^ 32)) else v % 2 ^ 32
  else register dt.bits (registerInt st v)

def Arith.apply : Arith → Int → Int → Int
  | add, a, b => a + b
  | sub, a, b => a - b
  | mul, a, b => a * b

namespace TRef

/-- The value of an operand. Nothing when a check for overflow leaves the trace. -/
def eval (run : TraceRun) : TRef → Option Nat
  | kint i => some (register 32 i)
  | xload t => some (xloadValue t run.source)
  | other ref => some (run.result ref)
  | conv a dt st sext _ => do
      let v ← a.eval run
      return convValue dt st sext v
  | arith o ov a b => do
      let v ← a.eval run
      let v' ← b.eval run
      let i := o.apply (registerInt .int v) (registerInt .int v')
      if ov && !decide (InRange false 32 i) then none else some (register 32 i)

/-! ## Narrowing -/

/-- `narrow_stripov`, up to `IR_MULOV`. -/
def narrow_stripov : TRef → TRef
  | arith o true a b => arith o false a.narrow_stripov b.narrow_stripov
  | tr => tr

/-- `lj_opt_narrow_toint` of an integer. -/
def lj_opt_narrow_toint (tr : TRef) : TRef := tr.narrow_stripov

end TRef

/-! ## The recorder -/

/-- `svisnz`: zero, one or a pointer to the value of the source. -/
inductive Svisnz
  | zero
  | one
  | pointer (bytes : List UInt8)

/-- A conversion on a trace: a guard that compares the source with zero, and what is stored as a
`dt`, or returned for a use as one. -/
structure Recorded where
  guard : Option (Bool × IRType × TRef) := none
  dt : IRType
  sp : TRef

/-- `EQ` and `NE` with zero. -/
def isZeroValue (t : IRType) (v : Nat) : Bool :=
  if t.isFp then (t.format.decode v).isZero else v == 0

/-- One run of a conversion: the bytes that it stores, unless its guard leaves the trace. -/
def Recorded.run (recorded : Recorded) (run : TraceRun) : Option (List UInt8) := do
  if let some (isnz, st, sp) := recorded.guard then
    let v ← sp.eval run
    if isZeroValue st v == isnz then none
  let v ← recorded.sp.eval run
  return xstoreBytes recorded.dt v

section

variable (d s : CNumber)

/-- `crec_ct2irt` of a number. -/
def crec_ct2irt : IRType :=
  if d.fp then
    if d.size = 8 then .num
    else if d.size = 4 then .float
    else .cdata
  else
    let b := d.size.log2
    if b ≤ 3 then .ofFls b d.unsigned else .cdata

def crec_isnonzero : Svisnz → Bool
  | .zero => false
  | .one => true
  | .pointer p =>
      if s.fp then
        if s.size = 4 then !(binary32.decode (word p)).isZero
        else !(binary64.decode (word p)).isZero
      else if s.size = 1 then word (p.take 1) != 0
      else if s.size = 2 then word (p.take 2) != 0
      else if s.size = 4 then word (p.take 4) != 0
      else word (p.take 8) != 0

/-- The rows and columns of number types, for a value in `sp`. Nothing for a conversion that is
not implemented, which ends the recording. -/
def crec_ct_ct (LJ_64 : Bool) (sp : TRef) (svisnz : Svisnz) : Option Recorded :=
  let dt := crec_ct2irt d
  let st := crec_ct2irt s
  let row := cconv_idx d.info
  let column := cconv_idx s.info
  let xstore (sp : TRef) : Option Recorded := some { dt := dt, sp := sp }
  if row = CCX_B then
    if column = CCX_B then xstore sp  -- Source operand is already normalized.
    else if st = .cdata then none
    else
      -- Specialize to the result of a comparison against 0.
      let isnz := crec_isnonzero s svisnz
      some { guard := some (isnz, st, sp), dt := dt, sp := .kint (if isnz then 1 else 0) }
  else if row = CCX_I then
    if dt = .cdata ∨ st = .cdata then none
    else if column = CCX_B ∨ column = CCX_I then
      -- Extend 32 to 64 bit integer.
      if d.size = 8 ∧ s.size < 8 ∧ !(LJ_64 && s.unsigned) then
        xstore (.conv sp dt (if s.size < 4 then .int else st) (!s.unsigned) false)
      else if d.size < 8 ∧ s.size = 8 then  -- Truncate from 64 bit integer.
        xstore (.conv sp (if d.size < 4 then .int else dt) st false false)
      else if st = .int then xstore sp.lj_opt_narrow_toint
      else xstore sp
    else xstore (.conv sp (if d.size < 4 then .int else dt) st false true)
  else if dt = .cdata ∨ st = .cdata then none
  else if column = CCX_B ∨ column = CCX_I then
    xstore (.conv sp dt (if s.size < 4 then .int else st) false false)
  else if dt ≠ st then xstore (.conv sp dt st false false)
  else xstore sp

end

end TvmJit
