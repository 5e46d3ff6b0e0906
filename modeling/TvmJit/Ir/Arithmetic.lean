import TvmJit.Foundation.Ieee
import TvmJit.Foundation.Power
import TvmJit.Ir.Instructions
import TvmJit.Number

/-! Narrowing of arithmetic operators of `lj_opt_narrow.c`, for the single-number build, and the values of the IR it
emits. -/

namespace TvmJit.Arith

open Foundation

/-! ## Double arithmetic -/

def addsd (a b : Num) : Num := BitVec.ofNat 64 (binary64.add a.toNat b.toNat)
def subsd (a b : Num) : Num := BitVec.ofNat 64 (binary64.sub a.toNat b.toNat)
def mulsd (a b : Num) : Num := BitVec.ofNat 64 (binary64.mul a.toNat b.toNat)
def divsd (a b : Num) : Num := BitVec.ofNat 64 (binary64.div a.toNat b.toNat)
def lj_vm_floor (a : Num) : Num := BitVec.ofNat 64 (binary64.floor a.toNat)

/-- The functions of the C library. -/
structure Libm where
  pow : Num → Num → Num
  sqrt : Num → Num
  log2 : Num → Num
  exp2 : Num → Num

/-- The arithmetic of the interpreter. -/
def lj_vm_foldarith (libm : Libm) (x y : Num) : ArithOp → Num
  | .add => addsd x y
  | .sub => subsd x y
  | .mul => mulsd x y
  | .div => divsd x y
  | .mod => subsd x (mulsd (lj_vm_floor (divsd x y)) y)
  | .pow => libm.pow x y

/-- Check whether a number fits into an int32_t (-0 is ok, too). -/
def numisint (n : Num) : Bool := n.eq (Num.ofInt n.num2int)

/-! ## Helper functions for generated machine code -/

/-- The remainder of the magnitudes, moved below zero if the signs differ. -/
def movedRemainder (a b : BitVec 32) : BitVec 32 :=
  let ua := if a.slt 0 then -a else a
  let ub := if b.slt 0 then -b else b
  let y := ua % ub
  if y ≠ 0 ∧ (a ^^^ b).slt 0 then y - ub else y

def lj_vm_modi (a b : BitVec 32) : BitVec 32 :=
  let y := movedRemainder a b
  if (y ^^^ b).slt 0 then -y else y

/-- Unsigned x^k, for k that is not zero. -/
def lj_vm_powui (x : Num) (k : BitVec 32) : Num := powerBySquares mulsd 32 x k.toNat

/-- Signed x^k. -/
def lj_vm_powi (x : Num) (k : BitVec 32) : Num :=
  if 1 < k.toInt then lj_vm_powui x k
  else if k = 1 then x
  else if k = 0 then Num.ofInt 1
  else divsd (Num.ofInt 1) (lj_vm_powui x (-k))

/-! ## Emitting -/

inductive IRT
  | int | num | str
  deriving DecidableEq

/-- References: to the two operands, which are older instructions, to constants and to what is emitted here. -/
inductive Ref
  | left
  | right
  | kint (k : BitVec 32)
  | knum (n : Num)
  | ksimdNeg
  | ins (index : Nat)
  | lit (mode : Nat)
  deriving DecidableEq

structure TRef where
  ref : Ref
  t : IRT

def tref_isk (tr : TRef) : Bool :=
  match tr.ref with
  | .kint _ | .knum _ => true
  | _ => false

structure Ins where
  o : IROp
  t : IRT
  op1 : Ref
  op2 : Ref

def IRCONV_NUM_INT : Nat := 14 <<< 5 ||| 19
def IRCONV_INT_NUM : Nat := 19 <<< 5 ||| 14
def IRCONV_CHECK : Nat := 3 <<< 12

def IRFPM_FLOOR : Nat := 0
def IRFPM_SQRT : Nat := 3
def IRFPM_EXP2 : Nat := 5
def IRFPM_LOG2 : Nat := 7

/-- The code that is emitted after a number of instructions, oldest first. Recording may end with an error. -/
def Emit (α : Type) := Nat → Option (α × List Ins)

instance : Monad Emit where
  pure a := fun _ => some (a, [])
  bind emitted next := fun count =>
    match emitted count with
    | none => none
    | some (a, new) =>
        match next a (count + new.length) with
        | none => none
        | some (b, more) => some (b, new ++ more)

def emit (ins : Ins) : Emit TRef := fun count => some (⟨.ins count, ins.t⟩, [ins])

/-- An instruction that goes through FOLD. The only fold that is looked at here is that of a converted constant. -/
def emitir (o : IROp) (t : IRT) (op1 op2 : Ref) : Emit TRef :=
  match o, op1 with
  | .conv, .kint k => if op2 = .lit IRCONV_NUM_INT then pure ⟨.knum (Num.ofInt k.toInt), .num⟩ else emit ⟨o, t, op1, op2⟩
  | _, _ => emit ⟨o, t, op1, op2⟩

/-- A value while recording. -/
inductive TValue
  | num (n : Num)
  | str (s : List UInt8)

def numberVnum : TValue → Num
  | .num n => n
  | .str _ => 0

def numberVint (o : TValue) : BitVec 32 := BitVec.ofInt 32 (numberVnum o).num2int

section

variable (libm : Libm) (lj_strscan_num : List UInt8 → Option Num)

/-- Convert string to number. Error out for non-numeric string values. -/
def conv_str_tonum (tr : TRef) (o : TValue) : Emit (TRef × TValue) :=
  match tr.t, o with
  | .str, .str s => do
      let tr ← emitir .strto .num tr.ref (.lit 0)
      match lj_strscan_num s with
      | some n => pure (tr, .num n)
      | none => fun _ => none
  | _, _ => pure (tr, o)

/-- Convert from integer or string to number. -/
def lj_ir_tonum (tr : TRef) : Emit TRef :=
  match tr.t with
  | .num => pure tr
  | .int => emitir .conv .num tr.ref (.lit IRCONV_NUM_INT)
  | .str => emitir .strto .num tr.ref (.lit 0)

/-- The opcodes for numbers. -/
def opcode : ArithOp → IROp
  | .add => .add
  | .sub => .sub
  | .mul => .mul
  | .div => .div
  | .mod => .mod
  | .pow => .pow

/-- Narrowing of arithmetic operations. -/
def lj_opt_narrow_arith (rb rc : TRef) (vb vc : TValue) (op : ArithOp) : Emit TRef := do
  let (rb, vb) ← conv_str_tonum lj_strscan_num rb vb
  let (rc, vc) ← conv_str_tonum lj_strscan_num rc vc
  let isint := numisint (lj_vm_foldarith libm (numberVnum vb) (numberVnum vc) op)
  -- Must not narrow MUL in non-DUALNUM variant, because it loses -0.
  if op = .add ∧ rb.t = .int ∧ rc.t = .int ∧ isint then emitir .addov .int rb.ref rc.ref
  else if op = .sub ∧ rb.t = .int ∧ rc.t = .int ∧ isint then emitir .subov .int rb.ref rc.ref
  else do
    let rb ← if rb.t ≠ .num then emitir .conv .num rb.ref (.lit IRCONV_NUM_INT) else pure rb
    let rc ← if rc.t ≠ .num then emitir .conv .num rc.ref (.lit IRCONV_NUM_INT) else pure rc
    emitir (opcode op) .num rb.ref rc.ref

/-- Narrowing of unary minus operator. -/
def lj_opt_narrow_unm (rc : TRef) (vc : TValue) : Emit TRef := do
  let (rc, vc) ← conv_str_tonum lj_strscan_num rc vc
  if rc.t = .int then
    if numberVint vc ≠ 0x80000000 then emitir .subov .int (.kint 0) rc.ref
    else do
      let rc ← emitir .conv .num rc.ref (.lit IRCONV_NUM_INT)
      emitir .neg .num rc.ref .ksimdNeg
  else emitir .neg .num rc.ref .ksimdNeg

/-- Narrowing of modulo operator. `narrow` is `JIT_F_OPT_NARROW`. -/
def lj_opt_narrow_mod (narrow : Bool) (rb rc : TRef) (vb vc : TValue) : Emit TRef := do
  let (rb, _) ← conv_str_tonum lj_strscan_num rb vb
  let (rc, vc) ← conv_str_tonum lj_strscan_num rc vc
  if narrow ∧ rb.t = .int ∧ rc.t = .int ∧ (numberVnum vc).isZero = false then do
    let _ ← emitir .ne .int rc.ref (.kint 0)
    emitir .mod .int rb.ref rc.ref
  else do
    -- b % c ==> b - floor(b/c)*c
    let rb ← lj_ir_tonum rb
    let rc ← lj_ir_tonum rc
    let tmp ← emitir .div .num rb.ref rc.ref
    let tmp ← emitir .fpmath .num tmp.ref (.lit IRFPM_FLOOR)
    let tmp ← emitir .mul .num tmp.ref rc.ref
    emitir .sub .num rb.ref tmp.ref

/-- A constant with the sign bit clear. -/
def isPositiveK (rb : TRef) : Bool :=
  match rb.ref with
  | .knum n => !n.msb
  | _ => false

/-- Split up b^c into exp2(c*log2(b)). -/
def splitPow (rb rc : TRef) : Emit TRef :=
  -- 1 ^ x ==> 1
  if rb.ref = .knum (Num.ofInt 1) then pure rb
  else do
    let rc ← lj_ir_tonum rc
    -- x ^ 0.5 ==> sqrt(x)
    if rc.ref = .knum 0x3fe0000000000000 then emitir .fpmath .num rb.ref (.lit IRFPM_SQRT)
    else do
      let rb ← emitir .fpmath .num rb.ref (.lit IRFPM_LOG2)
      let rc ← emitir .mul .num rb.ref rc.ref
      emitir .fpmath .num rc.ref (.lit IRFPM_EXP2)

/-- The split is faster for bigger exponents, but only done for (+k)^i. -/
def splits (rb : TRef) (vc : TValue) : Bool :=
  isPositiveK rb && !(decide (-65536 ≤ (numberVint vc).toInt) && decide ((numberVint vc).toInt ≤ 65536))

/-- Narrowing of power operator or math.pow. -/
def lj_opt_narrow_pow (rb rc : TRef) (vb vc : TValue) : Emit TRef := do
  let (rb, _) ← conv_str_tonum lj_strscan_num rb vb
  -- Left arg is always treated as an FP number.
  let rb ← lj_ir_tonum rb
  let (rc, vc) ← conv_str_tonum lj_strscan_num rc vc
  -- Narrowing must be unconditional to preserve (-x)^i semantics.
  if numisint (numberVnum vc) ∧ splits rb vc = false then do
    let rc ← if rc.t ≠ .int then emitir .conv .int rc.ref (.lit (IRCONV_INT_NUM ||| IRCONV_CHECK)) else pure rc
    -- Range guard: -65536 <= i <= 65536
    if isPositiveK rb ∧ tref_isk rc = false then do
      let tmp ← emitir .add .int rc.ref (.kint 65536)
      let _ ← emitir .ule .int tmp.ref (.kint 131072)
      emitir .pow .num rb.ref rc.ref
    else emitir .pow .num rb.ref rc.ref
  else splitPow rb rc

/-! ## Execution -/

/-- A value of a run of the trace. -/
inductive Val
  | int (i : BitVec 32)
  | num (n : Num)
  | str (s : List UInt8)

def Val.asInt : Val → BitVec 32
  | .int i => i
  | _ => 0

def Val.asNum : Val → Num
  | .num n => n
  | _ => 0

/-- The values of the operands. -/
structure Operands where
  left : Val
  right : Val

def value (operands : Operands) (values : List Val) : Ref → Val
  | .left => operands.left
  | .right => operands.right
  | .kint k => .int k
  | .knum n => .num n
  | .ins index => values.getD index (.num 0)
  | .ksimdNeg | .lit _ => .num 0

/-- The value of an instruction. There is none if it is a guard that fails. -/
def valueOf (v w : Val) (ins : Ins) : Option Val :=
  match ins.o, ins.t with
  | .add, .int => some (.int (v.asInt + w.asInt))
  | .add, _ => some (.num (addsd v.asNum w.asNum))
  | .sub, _ => some (.num (subsd v.asNum w.asNum))
  | .mul, _ => some (.num (mulsd v.asNum w.asNum))
  | .div, _ => some (.num (divsd v.asNum w.asNum))
  | .mod, _ => some (.int (lj_vm_modi v.asInt w.asInt))
  | .pow, _ => some (.num (lj_vm_powi v.asNum w.asInt))
  | .neg, _ => some (.num v.asNum.flipSign)
  | .addov, _ => if BitVec.saddOverflow v.asInt w.asInt then none else some (.int (v.asInt + w.asInt))
  | .subov, _ => if BitVec.ssubOverflow v.asInt w.asInt then none else some (.int (v.asInt - w.asInt))
  | .ne, _ => if v.asInt ≠ w.asInt then some v else none
  | .ule, _ => if v.asInt ≤ w.asInt then some v else none
  | .conv, .num => some (.num (Num.ofInt v.asInt.toInt))
  | .conv, _ => if numisint v.asNum then some (.int (BitVec.ofInt 32 v.asNum.num2int)) else none
  | .strto, _ =>
      match v with
      | .str s => (lj_strscan_num s).map .num
      | _ => none
  | .fpmath, _ =>
      some (.num
        (if ins.op2 = .lit IRFPM_FLOOR then lj_vm_floor v.asNum
         else if ins.op2 = .lit IRFPM_SQRT then libm.sqrt v.asNum
         else if ins.op2 = .lit IRFPM_LOG2 then libm.log2 v.asNum
         else libm.exp2 v.asNum))
  | _, _ => some v

def execute (operands : Operands) : List Ins → List Val → Option (List Val)
  | [], values => some values
  | ins :: code, values => do
      let v ← valueOf libm lj_strscan_num (value operands values ins.op1) (value operands values ins.op2) ins
      execute operands code (values ++ [v])

/-- The value of what is emitted, if recording gets there and no guard fails. -/
def result (operands : Operands) (emitted : Emit TRef) : Option Val := do
  let (tr, code) ← emitted 0
  let values ← execute libm lj_strscan_num operands code []
  return value operands values tr.ref

end

/-- The Lua number of a value. -/
def Val.number : Val → Num
  | .int i => Num.ofInt i.toInt
  | .num n => n
  | .str _ => 0

end TvmJit.Arith
