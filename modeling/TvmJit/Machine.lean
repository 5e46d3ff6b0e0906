import TvmJit.Parse.State
import Mathlib.Logic.Relation
import Mathlib.Logic.Function.Basic

/-! The meaning of the instructions that compute with registers, constants and
jumps, after the interpreter's `vm_x86.dasc`. A comparison or a test is followed
by a jump: the jump is executed when the condition holds and skipped otherwise. -/

namespace TvmJit

open Relation

/-! ## Lua values -/

inductive LuaValue
  | nil
  | bool (b : Bool)
  | num (n : Num)
  | str (s : GCstr)
  | object (id : Nat)
  deriving DecidableEq, Repr

/-- Neither nil nor false. -/
def LuaValue.truthy : LuaValue → Bool
  | .nil => false
  | .bool b => b
  | _ => true

/-- The operations of Lua on values of any kind; `none` is an error. On numbers
the arithmetic is the one the compiler folds with. -/
class Lua extends Vm where
  arith : ArithOp → LuaValue → LuaValue → Option LuaValue
  unm : LuaValue → Option LuaValue
  less : LuaValue → LuaValue → Option Bool
  lessEq : LuaValue → LuaValue → Option Bool
  sameObject : Nat → Nat → Option Bool
  arith_num : ∀ opr m n, arith opr (.num m) (.num n) = some (.num (foldarith opr m n))
  unm_num : ∀ n, unm (.num n) = some (.num n.flipSign)

/-- `==` of two values. -/
def Lua.equal [Lua] : LuaValue → LuaValue → Option Bool
  | .num m, .num n => some (m.eq n)
  | .object i, .object j => Lua.sameObject i j
  | v, w => some (v == w)

/-! ## Instructions -/

/-- The constants of a prototype. -/
structure KTable where
  kn : List Num
  kgc : List GCobj

/-- The string constant at an index. -/
def KTable.str (K : KTable) (idx : Nat) : Option LuaValue :=
  match K.kgc[idx]? with
  | some (.str s) => some (.str s)
  | _ => none

/-- The number constant at an index. -/
def KTable.num (K : KTable) (idx : Nat) : Option LuaValue := K.kn[idx]?.map .num

/-- The primitive a D operand encodes. -/
def priValue : Nat → LuaValue
  | 0 => .nil
  | 1 => .bool false
  | _ => .bool true

/-- Which operands of an arithmetic instruction are registers. -/
inductive ArithShape
  | vn | nv | vv
  deriving DecidableEq, Repr

def BCOp.arith : BCOp → Option (ArithOp × ArithShape)
  | .addvn => some (.add, .vn)
  | .subvn => some (.sub, .vn)
  | .mulvn => some (.mul, .vn)
  | .divvn => some (.div, .vn)
  | .modvn => some (.mod, .vn)
  | .addnv => some (.add, .nv)
  | .subnv => some (.sub, .nv)
  | .mulnv => some (.mul, .nv)
  | .divnv => some (.div, .nv)
  | .modnv => some (.mod, .nv)
  | .addvv => some (.add, .vv)
  | .subvv => some (.sub, .vv)
  | .mulvv => some (.mul, .vv)
  | .divvv => some (.div, .vv)
  | .modvv => some (.mod, .vv)
  | .pow => some (.pow, .vv)
  | _ => none

/-- The contents of the registers. -/
abbrev RegFile := BCReg → LuaValue

section

variable [Lua] (K : KTable) (ins : BCPos → BCIns)

/-- The value an instruction stores to its A register. -/
def valueOf (i : BCIns) (R : RegFile) : Option LuaValue :=
  match i.op with
  | .mov => some (R i.d)
  | .not => some (.bool !(R i.d).truthy)
  | .unm => Lua.unm (R i.d)
  | .kstr => K.str i.d
  | .kshort => some (.num (.ofInt (if i.d < 32768 then i.d else i.d - 65536)))
  | .knum => K.num i.d
  | .kpri => some (priValue i.d)
  | op =>
      match op.arith with
      | some (opr, .vn) => (K.num i.c).bind (Lua.arith opr (R i.b) ·)
      | some (opr, .nv) => (K.num i.c).bind (Lua.arith opr · (R i.b))
      | some (opr, .vv) => Lua.arith opr (R i.b) (R i.c)
      | none => none

/-- Whether the jump after a comparison or a test is executed. The opposite
comparisons are exact opposites, also when an operand is NaN. -/
def condOf (i : BCIns) (R : RegFile) : Option Bool :=
  match i.op with
  | .islt => Lua.less (R i.a) (R i.d)
  | .isge => (Lua.less (R i.a) (R i.d)).map not
  | .isle => Lua.lessEq (R i.a) (R i.d)
  | .isgt => (Lua.lessEq (R i.a) (R i.d)).map not
  | .iseqv => Lua.equal (R i.a) (R i.d)
  | .isnev => (Lua.equal (R i.a) (R i.d)).map not
  | .iseqs => (K.str i.d).bind (Lua.equal (R i.a))
  | .isnes => ((K.str i.d).bind (Lua.equal (R i.a))).map not
  | .iseqn => (K.num i.d).bind (Lua.equal (R i.a))
  | .isnen => ((K.num i.d).bind (Lua.equal (R i.a))).map not
  | .iseqp => Lua.equal (R i.a) (priValue i.d)
  | .isnep => (Lua.equal (R i.a) (priValue i.d)).map not
  | .istc | .ist => some (R i.d).truthy
  | .isfc | .isf => some !(R i.d).truthy
  | _ => none

/-- `ISTC` and `ISFC` copy the tested value when the condition holds. -/
def BCIns.copies (i : BCIns) : Bool := i.op == .istc || i.op == .isfc

def copied (i : BCIns) (R : RegFile) : RegFile :=
  if i.copies then Function.update R i.a (R i.d) else R

/-- `KNIL`: the registers from A to D. -/
def nilled (i : BCIns) (R : RegFile) : RegFile :=
  fun r => if i.a ≤ r ∧ r ≤ i.d then .nil else R r

/-- Where the jump at `pc` leads. -/
def jumpTarget (pc : BCPos) : BCPos := (pc + 1 + (ins pc).j).toNat

/-- A position of the bytecode and the registers there. -/
abbrev Config := BCPos × RegFile

/-- One instruction; `none` is an error. -/
def machineStep : Config → Option Config
  | (pc, R) =>
      let i := ins pc
      if i.op = .jmp then some (jumpTarget ins pc, R)
      else if i.op = .knil then some (pc + 1, nilled i R)
      else
        match condOf K i R with
        | some true => some (pc + 1, copied i R)
        | some false => some (pc + 2, R)
        | none => (valueOf K i R).map fun v => (pc + 1, Function.update R i.a v)

/-- The bytecode runs from one configuration to another. -/
def Runs : Config → Config → Prop :=
  ReflTransGen fun before after => machineStep K ins before = some after

end

end TvmJit
