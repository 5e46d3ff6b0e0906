import TvmJit.Number
import TvmJit.Bytecode

/-! Tokens of the TP language as `lj_lex_next` hands them to the parser, and the
errors a compilation can end with. -/

namespace TvmJit

/-- An interned byte string. Interning makes pointer equality equality of the
bytes. -/
abbrev GCstr := List UInt8

def GCstr.ofString (s : String) : GCstr := s.toUTF8.toList

/-- The special names, in the order of `SPDEF`. -/
inductive SP
  | vararg | nil | false_ | true_ | neg | not | bnot | len
  | add | sub | mul | div | mod | pow | idiv | band
  | bor | bxor | shl | shr | concat | eq | lt | le
  | ne | gt | ge | and | or | assign | break_ | call
  | call1 | callmeth | callmeth1 | cond | define | do_ | for_ | goto
  | if_ | index | label | lambda | let_ | letrec | line | loop
  | massign | mconcat | mdefine | mlet | repeat_ | return_ | while_
  deriving DecidableEq, Repr

namespace SP

def all : List SP :=
   [.vararg, .nil, .false_, .true_, .neg, .not, .bnot, .len, .add, .sub, .mul, .div, .mod,
    .pow, .idiv, .band, .bor, .bxor, .shl, .shr, .concat, .eq, .lt, .le, .ne, .gt, .ge,
    .and, .or, .assign, .break_, .call, .call1, .callmeth, .callmeth1, .cond, .define,
    .do_, .for_, .goto, .if_, .index, .label, .lambda, .let_, .letrec, .line, .loop,
    .massign, .mconcat, .mdefine, .mlet, .repeat_, .return_, .while_]

/-- `specialnames`. -/
def specialnames : List String :=
   ["!vararg", "!nil", "!false", "!true", "!neg", "!not", "!bnot", "!len", "!add", "!sub",
    "!mul", "!div", "!mod", "!pow", "!idiv", "!band", "!bor", "!bxor", "!shl", "!shr",
    "!concat", "!eq", "!lt", "!le", "!ne", "!gt", "!ge", "!and", "!or", "!assign",
    "!break", "!call", "!call1", "!callmeth", "!callmeth1", "!cond", "!define", "!do",
    "!for", "!goto", "!if", "!index", "!label", "!lambda", "!let", "!letrec", "!line",
    "!loop", "!massign", "!mconcat", "!mdefine", "!mlet", "!repeat", "!return", "!while"]

/-- The value `s->reserved` holds for this name. -/
def code (sp : SP) : Nat := sp.ctorIdx + 1

def str (sp : SP) : GCstr := .ofString (specialnames.getD sp.ctorIdx "")

/-- `sp > SP_true`: the names that head a form. -/
def headsForm (sp : SP) : Bool := SP.true_.code < sp.code

end SP

/-- `s->reserved`, as `lj_parse_init` set it up. -/
def reserved (s : GCstr) : Option SP := SP.all.find? fun sp => sp.str == s

theorem reserved_str (sp : SP) : reserved sp.str = some sp := by
  have all : ∀ sp ∈ SP.all, reserved sp.str = some sp := by decide +kernel
  exact all sp (by cases sp <;> decide)

/-- A cdata literal: a 64 bit integer or an imaginary number. -/
inductive GCcdata
  | int64 (value : BitVec 64)
  | uint64 (value : BitVec 64)
  | complex (im : Num)
  deriving DecidableEq, Repr

/-- `ls->tok` together with `ls->tokval`. -/
inductive Token
  | lparen
  | rparen
  | colon
  | number (n : Num)
  | cdata (cd : GCcdata)
  | name (s : GCstr)
  | string (s : GCstr)
  | eof
  deriving DecidableEq, Repr

/-- A token and the line breaks the lexer passed since the token before it. -/
structure LexItem where
  tok : Token
  newlines : Nat
  deriving DecidableEq, Repr

/-- What a token expected by `err_token` is called. -/
inductive TokenKind
  | lparen
  | rparen
  | name
  | eof
  deriving DecidableEq, Repr

/-- The error messages raised here, with their arguments. -/
inductive ErrMsg
  | xtoken (tok : TokenKind)
  | xlevels
  | xjump
  | xslots
  | xlimc (limit : Nat)
  | xlimm (limit : Nat) (what : String)
  | xlimf (line : BCLine) (limit : Nat) (what : String)
  | xfixup
  | xexpr
  | xfvar
  | xfupvar
  | xdots
  | xsyntax_
  | xbreak
  | xlundef (name : GCstr)
  | xldup (name : GCstr)
  | xgscope (name var : GCstr)
  | nanidx
  | nilidx
  deriving DecidableEq, Repr

/-- How a compilation ends without a prototype. -/
inductive ParseError
  /-- `lj_lex_error` at a line, near a token or (for token 0) near none. -/
  | lex (em : ErrMsg) (line : BCLine) (near : Option Token)
  /-- `lj_err_msg`. -/
  | msg (em : ErrMsg)
  /-- The C code gives this run no meaning: it reads a local variable it never
  wrote or an instruction outside the bytecode array, or it never ends. -/
  | stuck
  /-- The bound on the recursion of the model is used up. -/
  | outOfFuel
  deriving DecidableEq, Repr

end TvmJit
