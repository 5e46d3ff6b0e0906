import TvmJit.Token
import TvmJit.Foundation.Outcome

/-! The data of `tj_parse.c` and `tj_lex.h`: expression descriptors, scopes, the
state of one function being compiled and the state of the whole compilation.

Arrays that the C code indexes are functions from the index. The fields of
`FuncState` are grouped by what works on them: `Code` for the bytecode and the
jump lists, `Regs` for the register allocator, `Consts` for the constants. -/

namespace TvmJit

/-! ## Expressions -/

/-- Expression kinds, in the order of the source: constants first. -/
inductive ExpKind
  | vknil | vkfalse | vktrue | vkstr | vknum | vkcdata
  | vlocal | vupval | vglobal | vindexed
  | vjmp | vrelocable | vnonreloc | vcall | vvoid
  deriving DecidableEq, Repr

def ExpKind.code (k : ExpKind) : Nat := k.ctorIdx

/-- `const_pri`, the encoding of a primitive constant. -/
def constPri (k : ExpKind) : Nat := k.code

/-- Expression descriptor. The union `u` is written out member by member; the
code reads only the member that goes with the kind. -/
structure ExpDesc where
  k : ExpKind
  info : Nat
  aux : Nat
  nval : Num
  cd : GCcdata
  sval : GCstr
  t : BCPos
  f : BCPos
  deriving DecidableEq, Repr

namespace ExpDesc

/-- `expr_init`. -/
def init (k : ExpKind) (info : Nat) : ExpDesc where
  k := k
  info := info
  aux := 0
  nval := 0
  cd := .int64 0
  sval := []
  t := NO_JMP
  f := NO_JMP

/-- A descriptor after `memset(e, 0, sizeof(ExpDesc))`. -/
def zeroed : ExpDesc := { init .vknil 0 with t := 0, f := 0 }

def hasjump (e : ExpDesc) : Bool := e.t != e.f

def isk (e : ExpDesc) : Bool := e.k.code ≤ ExpKind.vknum.code

def iskNojump (e : ExpDesc) : Bool := e.isk && !e.hasjump

def isnumk (e : ExpDesc) : Bool := e.k == .vknum

def isnumkNojump (e : ExpDesc) : Bool := e.isnumk && !e.hasjump

def isstrk (e : ExpDesc) : Bool := e.k == .vkstr

def numiszero (e : ExpDesc) : Bool := e.nval.isZero

/-- `e->k <= VKTRUE`. -/
def ispri (e : ExpDesc) : Bool := e.k.code ≤ ExpKind.vktrue.code

end ExpDesc

/-- The contents of an `ExpDesc` variable, `none` while it is uninitialised. -/
abbrev Slot := Option ExpDesc

/-! ## Scopes and variables -/

/-- A block of scope. -/
structure FuncScope where
  vstart : Nat
  nactvar : Nat
  loop : Bool
  brk : Bool
  gola : Bool
  upval : Bool
  noclose : Bool
  deriving DecidableEq, Repr

abbrev VarIndex := Nat

def LJ_MAX_UPVAL : Nat := 60
def LJ_MAX_VSTACK : Nat := 65536 - LJ_MAX_UPVAL
def LJ_MAX_LOCVAR : Nat := 200
def LJ_MAX_XLEVEL : Nat := 200
def LJ_MAX_SLOTS : Nat := 250
def LJ_MAX_BCINS : Nat := 2 ^ 26

/-- The name of a variable, goto or label: a string, or one of the small
integers the source stores in the name pointer. -/
inductive VarName
  | small (n : Nat)
  | str (s : GCstr)
  deriving DecidableEq, Repr

namespace VarName

/-- `NULL`, an invalidated goto or label. -/
def null : VarName := .small 0

/-- `NAME_BREAK`. -/
def brk : VarName := .small 1

def forIdx : VarName := .small 1
def forStop : VarName := .small 2
def forStep : VarName := .small 3
def forGen : VarName := .small 4
def forState : VarName := .small 5
def forCtl : VarName := .small 6

end VarName

/-- `VarInfo`, with the bits of its `info` byte (`VSTACK_VAR_RW`, `VSTACK_GOTO`
and `VSTACK_LABEL`) spelled out. -/
structure VarInfo where
  name : VarName
  startpc : BCPos
  endpc : BCPos
  slot : Nat
  rw : Bool
  isgoto : Bool
  islabel : Bool
  final : Bool
  deriving DecidableEq, Repr

def VarInfo.empty : VarInfo := ⟨.null, 0, 0, 0, false, false, false, false⟩

/-! ## Constants and tables -/

/-- A collectable object the compiler stores as a constant. Tables and
prototypes are named by their index in the state, a cdata object by the number
of the constant it became. -/
inductive GCobj
  | str (s : GCstr)
  | tab (id : Nat)
  | proto (id : Nat)
  | cdata (cd : GCcdata) (id : Nat)
  deriving DecidableEq, Repr

inductive TValue
  | nil
  | bool (b : Bool)
  | num (n : Num)
  | obj (o : GCobj)
  deriving DecidableEq, Repr

/-- A table key as `lj_tab_set` stores it: numbers equal to a 32 bit integer go
to the array part or to the node of that integer. -/
inductive TabKey
  | int (k : Int)
  | num (n : Num)
  | bool (b : Bool)
  | obj (o : GCobj)
  deriving DecidableEq, Repr

/-- The slot `lj_tab_set` looks for. -/
def tabKey : TValue → Except ErrMsg TabKey
  | .nil => .error .nilidx
  | .bool b => .ok (.bool b)
  | .num n =>
      if n.eq (.ofInt n.num2int) then .ok (.int n.num2int)
      else if n.isNan then .error .nanidx
      else .ok (.num n)
  | .obj o => .ok (.obj o)

/-- The number a key is read back as: `(lua_Number)i` for the array part,
`n->key` for a node. -/
def TabKey.number : TabKey → Num
  | .int k => .ofInt k
  | .num n => n
  | _ => 0

/-- A template table. How far the array part has grown by rehashing is not
recorded, only the sizes the compiler asks for. -/
structure GCtab where
  asize : Nat
  hbits : Nat
  entries : List (TabKey × TValue)
  deriving DecidableEq, Repr

/-- Storing to the slot `lj_tab_set` returns. -/
def GCtab.set (tab : GCtab) (key : TabKey) (value : TValue) : GCtab :=
  if tab.entries.any (·.1 == key) then
    { tab with entries := tab.entries.map fun entry => if entry.1 = key then (key, value) else entry }
  else
    { tab with entries := tab.entries ++ [(key, value)] }

def hsize2hbits (s : Nat) : Nat := if s = 0 then 0 else if s = 1 then 1 else 1 + (s - 1).log2

/-! ## Function state -/

/-- The bytecode of a function and its jump lists. -/
structure Code where
  bcbase : BCPos → BCInsLine
  pc : BCPos
  lasttarget : BCPos
  jpc : BCPos
  /-- Offset of `bcbase` in the bytecode stack all functions share. -/
  bcofs : Nat

/-- The register allocator. -/
structure Regs where
  freereg : BCReg
  nactvar : BCReg
  framesize : Nat
  deriving DecidableEq, Repr

/-- The constants: the slots handed out in `kt`, and how many there are. -/
structure Consts where
  kt : List (TabKey × Nat)
  nkn : Nat
  nkgc : Nat
  deriving DecidableEq, Repr

/-- Where a number goes: the operand of a `KSHORT`, a number constant (`KNUM`,
an N operand, `ISEQN`, `USETN`), the byte key of a table access, or a key or a
value of a template table. -/
inductive NumOperand
  | short (d : Nat)
  | slot (idx : Nat)
  | byte (c : Nat)
  | key (key : TabKey)
  | value (value : TValue)
  deriving DecidableEq, Repr

/-- A number of the program together with the operand it became. -/
structure NumUse where
  literal : Num
  operand : NumOperand
  deriving DecidableEq, Repr

/-- Prototype flags. -/
structure ProtoFlags where
  child : Bool
  vararg : Bool
  ffi : Bool
  hasReturn : Bool
  fixupReturn : Bool
  deriving DecidableEq, Repr

structure FuncState where
  code : Code
  regs : Regs
  consts : Consts
  /-- The scopes, innermost first. -/
  bl : List FuncScope
  linedefined : BCLine
  vbase : Nat
  flags : ProtoFlags
  numparams : Nat
  varmap : Nat → VarIndex
  uvmap : List VarIndex
  uvtmp : List VarIndex
  /-- A record of the numbers used so far; the source keeps none. -/
  uses : List NumUse

/-- A local variable as the debug information has to show it. `BCPos` is a 32 bit
number. -/
structure LocVar where
  name : VarName
  slot : BCReg
  startpc : BitVec 32
  endpc : BitVec 32
  deriving DecidableEq, Repr

/-- What a function was like when its prototype was made: the lines of its
instructions after the header, the names of its upvalues and its local
variables. The source keeps only the encoded debug information. -/
structure DebugRecord where
  lines : List BCLine
  uvnames : List GCstr
  vars : List LocVar
  deriving DecidableEq, Repr

/-- A finished prototype. -/
structure GCproto where
  flags : ProtoFlags
  numparams : Nat
  framesize : Nat
  chunkname : GCstr
  bc : List BCIns
  kn : List Num
  kgc : List GCobj
  uv : List Nat
  firstline : BCLine
  numline : BCLine
  lineinfo : List Nat
  uvinfo : List UInt8
  varinfo : List UInt8
  /-- The record of `FuncState.uses`. -/
  uses : List NumUse
  record : DebugRecord
  deriving DecidableEq, Repr

/-! ## The compilation -/

/-- The checks of the register stack that the source states as `lua_assert`.
`freereg` stands for the statement that the first free register never falls
below the active variables. -/
inductive AssertSite
  | bcregFree
  | freereg
  | fscopeBegin
  | fscopeEnd
  | stmtEnd
  deriving DecidableEq, Repr

/-- The state of the lexer and of the functions being compiled. `failed` keeps
the checks that did not hold; a release build does not evaluate them. -/
structure LexState where
  tok : Token
  rest : List LexItem
  linenumber : BCLine
  lastline : BCLine
  chunkname : GCstr
  vstack : Nat → VarInfo
  vtop : Nat
  level : Nat
  fs : FuncState
  prev : List FuncState
  protos : List GCproto
  tabs : List GCtab
  failed : List AssertSite

/-- The tokens not consumed yet. -/
def LexState.ahead (ls : LexState) : List Token := ls.tok :: ls.rest.map LexItem.tok

/-- A descriptor read after `expr(ls, &v)` has returned: the tokens that call
started at, and whether it wrote the descriptor. -/
structure Consumed where
  ahead : List Token
  written : Bool
  deriving DecidableEq, Repr

/-- The compilation together with the record of the descriptors consumed. -/
structure ParseState where
  ls : LexState
  log : List Consumed

inductive CodeError
  | syn (em : ErrMsg)
  | limit (limit : Nat) (what : String)
  | stuck

/-- Steps that touch the bytecode of the current function only. -/
abbrev CodeM := EStateM CodeError Code

/-- Steps that touch the compilation but consume no descriptor of `expr`. -/
abbrev EmitM := EStateM ParseError LexState

abbrev ParseM := EStateM ParseError ParseState

/-- `err_limit`. -/
def LexState.errLimit (ls : LexState) (fs : FuncState) (limit : Nat) (what : String) :
    ParseError :=
  .lex (if fs.linedefined = 0 then .xlimm limit what else .xlimf fs.linedefined limit what)
    ls.linenumber none

/-- `err_syntax`, and the other errors of a step on the code. -/
def LexState.codeError (ls : LexState) : CodeError → ParseError
  | .syn em => .lex em ls.linenumber (some ls.tok)
  | .limit limit what => ls.errLimit ls.fs limit what
  | .stuck => .stuck

def LexState.setCode (ls : LexState) (code : Code) : LexState :=
  { ls with fs := { ls.fs with code := code } }

def inCode (m : CodeM α) : EmitM α := fun ls =>
  match m ls.fs.code with
  | .ok value code => .ok value (ls.setCode code)
  | .error e code => .error (ls.codeError e) (ls.setCode code)

def inEmit (m : EmitM α) : ParseM α := fun s =>
  match m s.ls with
  | .ok value ls => .ok value { s with ls := ls }
  | .error e ls => .error e { s with ls := ls }

instance : MonadLift CodeM EmitM := ⟨inCode⟩

instance : MonadLift EmitM ParseM := ⟨inEmit⟩

open Foundation

theorem wp_inCode (m : CodeM α) (ls : LexState) (post : α → LexState → Prop)
    (stop : ParseError → LexState → Prop) :
    wp (inCode m) ls post stop ↔
      wp m ls.fs.code (fun value code => post value (ls.setCode code))
        (fun e code => stop (ls.codeError e) (ls.setCode code)) := by
  unfold wp inCode
  cases m ls.fs.code <;> rfl

theorem wp_inEmit (m : EmitM α) (s : ParseState) (post : α → ParseState → Prop)
    (stop : ParseError → ParseState → Prop) :
    wp (inEmit m) s post stop ↔
      wp m s.ls (fun value ls => post value { s with ls := ls })
        (fun e ls => stop e { s with ls := ls }) := by
  unfold wp inEmit
  cases m s.ls <;> rfl

end TvmJit
