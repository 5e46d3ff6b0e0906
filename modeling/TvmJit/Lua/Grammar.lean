import TvmJit.Lua.Translator
import TvmJit.Lua.Tree

/-! Lua expressions as the grammar has them: their tokens, which operators may stand inside
of which, and the TP trees they mean. -/

namespace TvmJit

open Lexer

/-! ## Operators -/

inductive LuaUnop
  | not | neg | bnot | len
  deriving DecidableEq, Repr

inductive LuaBinop
  | add | sub | mul | mod | pow | div | idiv | band | bor | bxor | shl | shr | concat
  | ne | eq | lt | le | gt | ge | and | or
  deriving DecidableEq, Repr

namespace LuaUnop

def token : LuaUnop → LuaToken
  | not => .not | neg => .minus | bnot => .tilde | len => .hash

def sp : LuaUnop → SP
  | not => .not | neg => .neg | bnot => .bnot | len => .len

/-- How tightly a unary operator binds, among the levels of the binary ones. -/
def level : Nat := 11

end LuaUnop

namespace LuaBinop

def token : LuaBinop → LuaToken
  | add => .plus | sub => .minus | mul => .star | mod => .percent | pow => .caret
  | div => .slash | idiv => .dslash | band => .amp | bor => .bar | bxor => .tilde
  | shl => .shl | shr => .shr | concat => .concat | ne => .ne | eq => .eq
  | lt => .lt | le => .le | gt => .gt | ge => .ge | and => .and | or => .or

def sp : LuaBinop → SP
  | add => .add | sub => .sub | mul => .mul | mod => .mod | pow => .pow
  | div => .div | idiv => .idiv | band => .band | bor => .bor | bxor => .bxor
  | shl => .shl | shr => .shr | concat => .concat | ne => .ne | eq => .eq
  | lt => .lt | le => .le | gt => .gt | ge => .ge | and => .and | or => .or

/-- How tightly the operator binds. -/
def level : LuaBinop → Nat
  | or => 1
  | and => 2
  | lt | gt | le | ge | ne | eq => 3
  | bor => 4
  | bxor => 5
  | band => 6
  | shl | shr => 7
  | concat => 8
  | add | sub => 9
  | mul | div | idiv | mod => 10
  | pow => 12

def rightAssoc : LuaBinop → Bool
  | concat => true
  | pow => true
  | _ => false

end LuaBinop

/-! ## Leaves -/

/-- The bytes of `alpha`. -/
def isAlpha (b : UInt8) : Bool :=
  (ch 'A' ≤ b && b ≤ ch 'Z') || (ch 'a' ≤ b && b ≤ ch 'z') || b == ch '_'

/-- The bytes of `alnum`. -/
def isAlnum (b : UInt8) : Bool := isAlpha b || (ch '0' ≤ b && b ≤ ch '9')

/-- What `L:_llex` takes as a name. -/
def isLuaName : GCstr → Bool
  | [] => false
  | b :: rest => isAlpha b && rest.all isAlnum

/-- A name. Strings too long to be quoted are left out, here and below. -/
structure LuaName where
  s : GCstr
  isName : isLuaName s = true
  quoted : GCstr
  isQuoted : tvmQuote s = .ok quoted

structure LuaString where
  s : GCstr
  quoted : GCstr
  isQuoted : tvmQuote s = .ok quoted

/-- What `L:_read_numeral` takes, from a digit or from a dot and a digit on. -/
def isLuaNumeral : GCstr → Bool
  | [] => false
  | b :: rest =>
      if b = ch '.' then
        match rest with
        | [] => false
        | c :: rest => ch '0' ≤ c && c ≤ ch '9' && bodyText c rest == (c :: rest, [])
      else ch '0' ≤ b && b ≤ ch '9' && bodyText b rest == (b :: rest, [])

structure LuaNumeral [Tonumber] where
  text : GCstr
  value : Num
  isNumeral : isLuaNumeral text = true
  isNumber : Tonumber.tonumber text = some value

/-- A function body that `P:body` translates: its tokens behind `function`, and the tree of
what is written for them, a `!lambda`. -/
structure LuaFunction [Tonumber] [LuaBody] where
  toks : List LuaToken
  entries : TpEntries
  text : GCstr
  wf : entries.Wf
  isText : TextOf text (TpTree.form .lambda entries).tokens
  translates : ∀ line (p : LuaP) rest, p.toks.map Prod.fst = toks ++ rest →
    ∃ q, LuaBody.body line p = .ok q ∧ q.toks.map Prod.fst = rest ∧ q.out = p.out ++ text

inductive LuaSep
  | comma | semi
  deriving DecidableEq, Repr

def LuaSep.token : LuaSep → LuaToken
  | comma => .comma
  | semi => .semi

/-! ## Expressions -/

variable [Tonumber] [LuaBody]

mutual
inductive LuaExpr
  | nil | true | false | dots
  | number (t : LuaNumeral)
  | string (s : LuaString)
  | function (f : LuaFunction)
  | table (fields : LuaFields)
  | suffixed (e : LuaSuffixed)
  | unop (op : LuaUnop) (e : LuaExpr)
  | binop (op : LuaBinop) (l r : LuaExpr)

inductive LuaSuffixed
  | name (n : LuaName)
  | paren (e : LuaExpr)
  | dot (e : LuaSuffixed) (n : LuaName)
  | index (e : LuaSuffixed) (k : LuaExpr)
  | call (e : LuaSuffixed) (args : LuaArgs)
  | method (e : LuaSuffixed) (n : LuaName) (args : LuaArgs)

inductive LuaArgs
  | none
  | list (es : LuaExprs)
  | table (fields : LuaFields)
  | string (s : LuaString)

inductive LuaExprs
  | last (e : LuaExpr)
  | more (e : LuaExpr) (rest : LuaExprs)

inductive LuaFields
  | nil
  | last (f : LuaField)
  | more (f : LuaField) (sep : LuaSep) (rest : LuaFields)

inductive LuaField
  | item (e : LuaExpr)
  | named (n : LuaName) (e : LuaExpr)
  | keyed (k e : LuaExpr)
end

/-! ## Tokens -/

mutual
def LuaExpr.tokens : LuaExpr → List LuaToken
  | .nil => [.nil]
  | .true => [.true]
  | .false => [.false]
  | .dots => [.dots]
  | .number t => [.number t.text]
  | .string s => [.string s.s]
  | .function f => .function :: f.toks
  | .table fields => .lbrace :: (fields.tokens ++ [.rbrace])
  | .suffixed e => e.tokens
  | .unop op e => op.token :: e.tokens
  | .binop op l r => l.tokens ++ op.token :: r.tokens

def LuaSuffixed.tokens : LuaSuffixed → List LuaToken
  | .name n => [.name n.s]
  | .paren e => .lparen :: (e.tokens ++ [.rparen])
  | .dot e n => e.tokens ++ [.dot, .name n.s]
  | .index e k => e.tokens ++ .lbracket :: (k.tokens ++ [.rbracket])
  | .call e args => e.tokens ++ args.tokens
  | .method e n args => e.tokens ++ .colon :: .name n.s :: args.tokens

def LuaArgs.tokens : LuaArgs → List LuaToken
  | .none => [.lparen, .rparen]
  | .list es => .lparen :: (es.tokens ++ [.rparen])
  | .table fields => .lbrace :: (fields.tokens ++ [.rbrace])
  | .string s => [.string s.s]

def LuaExprs.tokens : LuaExprs → List LuaToken
  | .last e => e.tokens
  | .more e rest => e.tokens ++ .comma :: rest.tokens

def LuaFields.tokens : LuaFields → List LuaToken
  | .nil => []
  | .last f => f.tokens
  | .more f sep rest => f.tokens ++ sep.token :: rest.tokens

def LuaField.tokens : LuaField → List LuaToken
  | .item e => e.tokens
  | .named n e => .name n.s :: .assign :: e.tokens
  | .keyed k e => .lbracket :: (k.tokens ++ .rbracket :: .assign :: e.tokens)
end

/-! ## Numerals -/

mutual
/-- The numerals of an expression, those of its function bodies apart. -/
def LuaExpr.numerals : LuaExpr → List LuaNumeral
  | .number t => [t]
  | .table fields => fields.numerals
  | .suffixed e => e.numerals
  | .unop _ e => e.numerals
  | .binop _ l r => l.numerals ++ r.numerals
  | _ => []

def LuaSuffixed.numerals : LuaSuffixed → List LuaNumeral
  | .name _ => []
  | .paren e => e.numerals
  | .dot e _ => e.numerals
  | .index e k => e.numerals ++ k.numerals
  | .call e args => e.numerals ++ args.numerals
  | .method e _ args => e.numerals ++ args.numerals

def LuaArgs.numerals : LuaArgs → List LuaNumeral
  | .list es => es.numerals
  | .table fields => fields.numerals
  | _ => []

def LuaExprs.numerals : LuaExprs → List LuaNumeral
  | .last e => e.numerals
  | .more e rest => e.numerals ++ rest.numerals

def LuaFields.numerals : LuaFields → List LuaNumeral
  | .nil => []
  | .last f => f.numerals
  | .more f _ rest => f.numerals ++ rest.numerals

def LuaField.numerals : LuaField → List LuaNumeral
  | .item e => e.numerals
  | .named _ e => e.numerals
  | .keyed k e => k.numerals ++ e.numerals
end

/-! ## Precedence -/

namespace LuaExpr

/-- The expression may be the left operand of `op`. -/
def MayStandLeft (op : LuaBinop) : LuaExpr → Prop
  | unop _ _ => op.level < LuaUnop.level
  | binop op' _ _ => op.level < op'.level ∨ (op.level = op'.level ∧ op.rightAssoc = Bool.false)
  | _ => True

/-- The expression may be the right operand of `op`. -/
def MayStandRight (op : LuaBinop) : LuaExpr → Prop
  | binop op' _ _ => op.level < op'.level ∨ (op.level = op'.level ∧ op.rightAssoc = Bool.true)
  | _ => True

/-- The expression may be the operand of a unary operator. -/
def MayStandUnary : LuaExpr → Prop
  | binop op' _ _ => LuaUnop.level < op'.level
  | _ => True

end LuaExpr

mutual
/-- No operator stands inside of one it would have to stand in parentheses for. -/
def LuaExpr.Respects : LuaExpr → Prop
  | .table fields => fields.Respects
  | .suffixed e => e.Respects
  | .unop _ e => e.MayStandUnary ∧ e.Respects
  | .binop op l r => l.MayStandLeft op ∧ r.MayStandRight op ∧ l.Respects ∧ r.Respects
  | _ => True

def LuaSuffixed.Respects : LuaSuffixed → Prop
  | .name _ => True
  | .paren e => e.Respects
  | .dot e _ => e.Respects
  | .index e k => e.Respects ∧ k.Respects
  | .call e args => e.Respects ∧ args.Respects
  | .method e _ args => e.Respects ∧ args.Respects

def LuaArgs.Respects : LuaArgs → Prop
  | .list es => es.Respects
  | .table fields => fields.Respects
  | _ => True

def LuaExprs.Respects : LuaExprs → Prop
  | .last e => e.Respects
  | .more e rest => e.Respects ∧ rest.Respects

def LuaFields.Respects : LuaFields → Prop
  | .nil => True
  | .last f => f.Respects
  | .more f _ rest => f.Respects ∧ rest.Respects

def LuaField.Respects : LuaField → Prop
  | .item e => e.Respects
  | .named _ e => e.Respects
  | .keyed k e => k.Respects ∧ e.Respects
end

/-! ## Trees -/

section

variable (leaf : LuaNumeral → Token)

mutual
/-- The tree of an expression. `one` asks a call for a single value, and `leaf` is what
numerals are. -/
def LuaExpr.tree (one : Bool) : LuaExpr → TpTree
  | .nil => .atom (.name SP.nil.str)
  | .true => .atom (.name SP.true_.str)
  | .false => .atom (.name SP.false_.str)
  | .dots => .atom (.name SP.vararg.str)
  | .number t => .atom (leaf t)
  | .string s => .atom (.string s.s)
  | .function f => .form .lambda f.entries
  | .table fields => .table fields.entries
  | .suffixed e => e.tree one
  | .unop op e => .form op.sp (.item (e.tree Bool.false) .nil)
  | .binop op l r => .form op.sp (.item (l.tree one) (.item (r.tree Bool.false) .nil))

def LuaSuffixed.tree (one : Bool) : LuaSuffixed → TpTree
  | .name n => .atom (.name n.s)
  | .paren e => e.tree Bool.true
  | .dot e n => .form .index (.item (e.tree one) (.item (.atom (.string n.s)) .nil))
  | .index e k => .form .index (.item (e.tree one) (.item (k.tree Bool.true) .nil))
  | .call e args => .form (if one then .call1 else .call) (.item (e.tree one) args.entries)
  | .method e n args =>
      .form (if one then .callmeth1 else .callmeth)
        (.item (e.tree one) (.item (.atom (.name n.s)) args.entries))

def LuaArgs.entries : LuaArgs → TpEntries
  | .none => .nil
  | .list es => es.entries
  | .table fields => .item (.table fields.entries) .nil
  | .string s => .item (.atom (.string s.s)) .nil

def LuaExprs.entries : LuaExprs → TpEntries
  | .last e => .item (e.tree Bool.false) .nil
  | .more e rest => .item (e.tree Bool.false) rest.entries

def LuaFields.entries : LuaFields → TpEntries
  | .nil => .nil
  | .last f => f.entry .nil
  | .more f _ rest => f.entry rest.entries

def LuaField.entry (rest : TpEntries) : LuaField → TpEntries
  | .item e => .item (e.tree Bool.false) rest
  | .named n e => .pair (.atom (.string n.s)) (e.tree Bool.true) rest
  | .keyed k e => .pair (k.tree Bool.true) (e.tree Bool.true) rest
end

end

end TvmJit
