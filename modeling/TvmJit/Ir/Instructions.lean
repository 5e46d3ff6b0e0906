import Mathlib.Data.BitVec

/-! The instruction format of the SSA intermediate representation in `lj_ir.h`: opcodes with
their modes, result types with their flags, references and the fields of an instruction. -/

namespace TvmJit

/-- IR opcodes, in the order of `IRDEF`. -/
inductive IROp
  | lt | ge | le | gt | ult | uge | ule | ugt | eq | ne | abc | retf | nop | base | pval
  | gcstep | hiop | loop | use | phi | rename | prof | kpri | kint | kgc | kptr | kkptr
  | knull | knum | kint64 | kslot | bnot | bswap | band | bor | bxor | bshl | bshr | bsar
  | brol | bror | add | sub | mul | div | mod | pow | neg | abs | atan2 | ldexp | min | max
  | fpmath | addov | subov | mulov | aref | hrefk | href | newref | urefo | urefc | fref
  | strref | lref | aload | hload | uload | fload | xload | sload | vload | astore | hstore
  | ustore | fstore | xstore | snew | xsnew | tnew | tdup | cnew | cnewi | bufhdr | bufput
  | bufstr | tbar | obar | xbar | conv | tobit | tostr | strto | calln | calla | calll
  | calls | callxs | carg
  deriving DecidableEq, Repr

/-! ## Modes -/

/-! Operand modes. -/
def IRMref : BitVec 8 := 0
def IRMlit : BitVec 8 := 1
def IRMcst : BitVec 8 := 2
def IRMnone : BitVec 8 := 3

/-! Mode bits: commutative, normal or reference, allocation, load, store, weak guard. -/
def IRM_C : BitVec 8 := 0x10
def IRM_N : BitVec 8 := 0x00
def IRM_R : BitVec 8 := IRM_N
def IRM_A : BitVec 8 := 0x20
def IRM_L : BitVec 8 := 0x40
def IRM_S : BitVec 8 := 0x60
def IRM_W : BitVec 8 := 0x80
def IRM_NW : BitVec 8 := IRM_N ||| IRM_W
def IRM_CW : BitVec 8 := IRM_C ||| IRM_W
def IRM_AW : BitVec 8 := IRM_A ||| IRM_W
def IRM_LW : BitVec 8 := IRM_L ||| IRM_W

def IRMODE (m m1 m2 : BitVec 8) : BitVec 8 := (m1 ||| (m2 <<< 2) ||| m) ^^^ IRM_W

def lj_ir_mode : IROp → BitVec 8
  | .lt | .ge | .le | .gt | .ult | .uge | .ule | .ugt | .abc | .bshl | .bshr | .bsar
  | .brol | .bror | .sub | .div | .mod | .pow | .neg | .abs | .atan2 | .ldexp | .strref
  | .snew | .tobit | .carg => IRMODE IRM_N IRMref IRMref
  | .eq | .ne | .band | .bor | .bxor | .add | .mul | .min | .max => IRMODE IRM_C IRMref IRMref
  | .retf | .hiop | .phi | .newref | .astore | .hstore | .ustore | .fstore | .xstore
  | .obar | .callxs => IRMODE IRM_S IRMref IRMref
  | .nop | .kpri => IRMODE IRM_N IRMnone IRMnone
  | .base => IRMODE IRM_N IRMlit IRMlit
  | .pval => IRMODE IRM_N IRMlit IRMnone
  | .gcstep | .loop | .prof | .xbar => IRMODE IRM_S IRMnone IRMnone
  | .use | .tbar => IRMODE IRM_S IRMref IRMnone
  | .rename | .calls => IRMODE IRM_S IRMref IRMlit
  | .kint | .kgc | .kptr | .kkptr | .knull | .knum | .kint64 => IRMODE IRM_N IRMcst IRMnone
  | .kslot | .fpmath | .tostr | .calln => IRMODE IRM_N IRMref IRMlit
  | .bnot | .bswap | .strto => IRMODE IRM_N IRMref IRMnone
  | .addov | .mulov => IRMODE IRM_CW IRMref IRMref
  | .subov | .cnewi => IRMODE IRM_NW IRMref IRMref
  | .aref | .hrefk => IRMODE IRM_R IRMref IRMref
  | .href | .bufput => IRMODE IRM_L IRMref IRMref
  | .urefo | .urefc => IRMODE IRM_LW IRMref IRMlit
  | .fref => IRMODE IRM_R IRMref IRMlit
  | .lref => IRMODE IRM_L IRMnone IRMnone
  | .aload | .hload | .uload | .vload => IRMODE IRM_L IRMref IRMnone
  | .fload | .xload | .bufhdr | .calll => IRMODE IRM_L IRMref IRMlit
  | .sload => IRMODE IRM_L IRMlit IRMlit
  | .xsnew | .bufstr => IRMODE IRM_A IRMref IRMref
  | .tnew => IRMODE IRM_AW IRMlit IRMlit
  | .tdup => IRMODE IRM_AW IRMref IRMnone
  | .cnew => IRMODE IRM_AW IRMref IRMref
  | .conv => IRMODE IRM_NW IRMref IRMlit
  | .calla => IRMODE IRM_A IRMref IRMlit

/-! ## Types and references -/

/-- A result type with its flags. -/
abbrev IRType1 := BitVec 8

def IRT_NIL : IRType1 := 0
def IRT_P32 : IRType1 := 5
def IRT_P64 : IRType1 := 9
def IRT_NUM : IRType1 := 14
def IRT_INT : IRType1 := 19
def IRT_I64 : IRType1 := 21
def IRT_MARK : IRType1 := 0x20
def IRT_GUARD : IRType1 := 0x80

def irt_isguard (t : IRType1) : Bool := t &&& IRT_GUARD != 0
def irt_ismarked (t : IRType1) : Bool := t &&& IRT_MARK != 0
def irt_setmark (t : IRType1) : IRType1 := t ||| IRT_MARK
def irt_clearmark (t : IRType1) : IRType1 := t &&& ~~~IRT_MARK

@[simp] theorem irt_ismarked_setmark (t : IRType1) : irt_ismarked (irt_setmark t) = true := by
  revert t
  decide

@[simp] theorem irt_ismarked_clearmark (t : IRType1) : irt_ismarked (irt_clearmark t) = false := by
  revert t
  decide

/-- One stored reference. -/
abbrev IRRef1 := BitVec 16

/-- References as the passes hold them in variables. -/
abbrev IRRef := Nat

def REF_BIAS : IRRef := 0x8000
def REF_TRUE : IRRef := REF_BIAS - 3
def REF_NIL : IRRef := REF_BIAS - 1
def REF_BASE : IRRef := REF_BIAS
def REF_FIRST : IRRef := REF_BIAS + 1

/-- The cast of a reference to the width of a stored one. -/
def IRRef1.of (ref : IRRef) : IRRef1 := BitVec.ofNat 16 ref

/-! ## Instructions -/

/-- An instruction. Constants have their 32-bit value in place of the operands. -/
structure IRIns where
  op12 : BitVec 32
  t : IRType1
  o : IROp
  prev : IRRef1
  deriving DecidableEq

namespace IRIns

def op1 (ir : IRIns) : IRRef1 := ir.op12.setWidth 16
def op2 (ir : IRIns) : IRRef1 := (ir.op12 >>> 16).setWidth 16

end IRIns

/-- `IRREF2`: two stored references in one word. -/
def IRREF2 (lo hi : IRRef1) : BitVec 32 := hi ++ lo

/-- A store or any other operation with a non-weak guard has a side effect. -/
def ir_sideeff (ir : IRIns) : Bool := IRM_S ≤ (ir.t ||| ~~~IRT_GUARD) &&& lj_ir_mode ir.o

namespace IROp

/-- Opcodes of constants, which stand below `REF_BIAS`. -/
def isConst : IROp → Bool
  | kpri | kint | kgc | kptr | kkptr | knull | knum | kint64 | kslot => true
  | _ => false

end IROp

end TvmJit
