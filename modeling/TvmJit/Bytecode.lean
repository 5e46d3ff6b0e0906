import Mathlib.Data.Nat.Bitwise
import Mathlib.Tactic.Ring

/-! The bytecode instruction format of `lj_bc.h`. An instruction is kept as its
opcode, its A field and its upper 16 bits, which formats AD and ABC read as D
or as the bytes B and C. -/

namespace TvmJit

/-- Bytecode opcodes, in the order of `BCDEF`. -/
inductive BCOp
  | islt | isge | isle | isgt
  | iseqv | isnev | iseqs | isnes | iseqn | isnen | iseqp | isnep
  | istc | isfc | ist | isf | istype | isnum
  | mov | not | unm | len
  | addvn | subvn | mulvn | divvn | modvn
  | addnv | subnv | mulnv | divnv | modnv
  | addvv | subvv | mulvv | divvv | modvv
  | pow | cat
  | kstr | kcdata | kshort | knum | kpri | knil
  | uget | usetv | usets | usetn | usetp | uclo | fnew
  | tnew | tdup | gget | gset | tgetv | tgets | tgetb | tgetr
  | tsetv | tsets | tsetb | tsetm | tsetr
  | callm | call | callmt | callt | iterc | itern | varg | isnext
  | retm | ret | ret0 | ret1
  | fori | jfori | forl | iforl | jforl
  | iterl | iiterl | jiterl
  | loop | iloop | jloop | jmp
  | funcf | ifuncf | jfuncf | funcv | ifuncv | jfuncv | funcc | funccw
  deriving DecidableEq, Repr

namespace BCOp

/-- The opcode number. -/
def code (op : BCOp) : Nat := op.ctorIdx

def all : List BCOp :=
   [.islt, .isge, .isle, .isgt,
    .iseqv, .isnev, .iseqs, .isnes, .iseqn, .isnen, .iseqp, .isnep,
    .istc, .isfc, .ist, .isf, .istype, .isnum,
    .mov, .not, .unm, .len,
    .addvn, .subvn, .mulvn, .divvn, .modvn,
    .addnv, .subnv, .mulnv, .divnv, .modnv,
    .addvv, .subvv, .mulvv, .divvv, .modvv,
    .pow, .cat,
    .kstr, .kcdata, .kshort, .knum, .kpri, .knil,
    .uget, .usetv, .usets, .usetn, .usetp, .uclo, .fnew,
    .tnew, .tdup, .gget, .gset, .tgetv, .tgets, .tgetb, .tgetr,
    .tsetv, .tsets, .tsetb, .tsetm, .tsetr,
    .callm, .call, .callmt, .callt, .iterc, .itern, .varg, .isnext,
    .retm, .ret, .ret0, .ret1,
    .fori, .jfori, .forl, .iforl, .jforl,
    .iterl, .iiterl, .jiterl,
    .loop, .iloop, .jloop, .jmp,
    .funcf, .ifuncf, .jfuncf, .funcv, .ifuncv, .jfuncv, .funcc, .funccw]

def ofCode (n : Nat) : BCOp := all.getD n .funccw

/-- Opcode arithmetic, `op + (other - base)`: the opcode standing to `op` as
`other` stands to `base`. -/
def shift (op base other : BCOp) : BCOp := ofCode (op.code + other.code - base.code)

/-- `bc_op(ins) ^ 1`, the opposite comparison. -/
def flip (op : BCOp) : BCOp := ofCode (op.code ^^^ 1)

@[simp] theorem ofCode_code (op : BCOp) : ofCode op.code = op := by
  cases op <;> rfl

theorem code_injective : Function.Injective code := by
  intro left right equal
  rw [← ofCode_code left, ← ofCode_code right, equal]

end BCOp

abbrev BCReg := Nat
abbrev BCPos := Nat
abbrev BCLine := Int

def BCMAX_C : Nat := 0xff
def BCMAX_B : Nat := 0xff
def BCMAX_D : Nat := 0xffff
def BCBIAS_J : Nat := 0x8000
def NO_REG : BCReg := 0xff
def NO_JMP : BCPos := 0xffffffff

/-- Reduction of an unsigned 32 bit result. -/
def u32 (n : Int) : Nat := (n % 4294967296).toNat

/-- Bits put together from a multiple of `2 ^ i` and what is below it. -/
theorem or_eq_add {a b : Nat} (i : Nat) (multiple : 2 ^ i ∣ a) (small : b < 2 ^ i) :
    a ||| b = a + b := by
  obtain ⟨m, rfl⟩ := multiple
  exact (Nat.two_pow_add_eq_or_of_lt small m).symm

structure BCIns where
  op : BCOp
  a : Nat
  d : Nat
  deriving DecidableEq, Repr

namespace BCIns

/-- `BCINS_AD`. The operands are only shifted, so what does not fit into the A
byte runs into D. -/
def ad (op : BCOp) (a d : Nat) : BCIns := ⟨op, a % 256, (a / 256 ||| d) % 65536⟩

/-- `BCINS_ABC`. -/
def abc (op : BCOp) (a b c : Nat) : BCIns := ad op a (b * 256 ||| c)

/-- `BCINS_AJ`. -/
def aj (op : BCOp) (a : Nat) (j : Int) : BCIns := ad op a (u32 (j + BCBIAS_J))

def b (ins : BCIns) : Nat := ins.d / 256

def c (ins : BCIns) : Nat := ins.d % 256

def j (ins : BCIns) : Int := ins.d - BCBIAS_J

def setOp (ins : BCIns) (op : BCOp) : BCIns := { ins with op := op }

def setA (ins : BCIns) (x : Nat) : BCIns := { ins with a := x % 256 }

def setB (ins : BCIns) (x : Nat) : BCIns := { ins with d := x % 256 * 256 + ins.c }

def setD (ins : BCIns) (x : Nat) : BCIns := { ins with d := x % 65536 }

def setJ (ins : BCIns) (x : Int) : BCIns := ins.setD (u32 (x + BCBIAS_J))

@[simp] theorem ad_op (op : BCOp) (a d : Nat) : (ad op a d).op = op := rfl

@[simp] theorem abc_op (op : BCOp) (a b c : Nat) : (abc op a b c).op = op := rfl

@[simp] theorem aj_op (op : BCOp) (a : Nat) (j : Int) : (aj op a j).op = op := rfl

@[simp] theorem ad_a {op : BCOp} {a d : Nat} (small : a < 256) : (ad op a d).a = a :=
  Nat.mod_eq_of_lt small

theorem ad_d {op : BCOp} {a d : Nat} (smallA : a < 256) (smallD : d < 65536) :
    (ad op a d).d = d := by
  have noOverflow : a / 256 = 0 := Nat.div_eq_of_lt smallA
  simp only [ad, noOverflow, Nat.zero_or, Nat.mod_eq_of_lt smallD]

@[simp] theorem abc_a {op : BCOp} {a b c : Nat} (small : a < 256) :
    (abc op a b c).a = a := ad_a small

theorem abc_d {op : BCOp} {a b c : Nat} (smallA : a < 256) (smallB : b < 256)
    (smallC : c < 256) : (abc op a b c).d = b * 256 + c := by
  have multiple : 2 ^ 8 ∣ b * 256 := Nat.dvd_mul_left 256 b
  rw [abc, or_eq_add 8 multiple smallC, ad_d smallA]
  omega

theorem abc_b {op : BCOp} {a b c : Nat} (smallA : a < 256) (smallB : b < 256)
    (smallC : c < 256) : (abc op a b c).b = b := by
  rw [BCIns.b, abc_d smallA smallB smallC]
  omega

theorem abc_c {op : BCOp} {a b c : Nat} (smallA : a < 256) (smallB : b < 256)
    (smallC : c < 256) : (abc op a b c).c = c := by
  rw [BCIns.c, abc_d smallA smallB smallC]
  omega

end BCIns

/-- `BCInsLine`: an instruction and the line it is attributed to. -/
structure BCInsLine where
  ins : BCIns
  line : BCLine
  deriving DecidableEq, Repr

end TvmJit
