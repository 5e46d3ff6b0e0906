import TvmJit.Lex.Reader
import TvmJit.Lex.Quote

/-! The expressions of `lunokhod.lua`: from the tokens of Lua to the text of TP. The tokens
are given as a list, and function bodies are the parameter `LuaBody`. -/

namespace TvmJit

/-! ## Tokens -/

/-- `self.t`. -/
inductive LuaToken
  | name (seminfo : GCstr)
  | string (seminfo : GCstr)
  | number (seminfo : GCstr)
  | nil | true | false | dots | function
  | and | or | not
  | plus | minus | star | percent | caret | slash | dslash | amp | bar | tilde | shl | shr
  | concat | ne | eq | lt | le | gt | ge | hash
  | lparen | rparen | lbrace | rbrace | lbracket | rbracket
  | dot | colon | comma | semi | assign
  | eof
  | other (text : String)
  deriving DecidableEq, Repr

namespace LuaToken

/-- `self.t.token`. -/
def text : LuaToken → String
  | name _ => "<name>"
  | string _ => "<string>"
  | number _ => "<number>"
  | nil => "nil" | true => "true" | false => "false" | dots => "..." | function => "function"
  | and => "and" | or => "or" | not => "not"
  | plus => "+" | minus => "-" | star => "*" | percent => "%" | caret => "^" | slash => "/"
  | dslash => "//" | amp => "&" | bar => "|" | tilde => "~" | shl => "<<" | shr => ">>"
  | concat => ".." | ne => "~=" | eq => "==" | lt => "<" | le => "<=" | gt => ">" | ge => ">="
  | hash => "#"
  | lparen => "(" | rparen => ")" | lbrace => "\x7b" | rbrace => "\x7d"
  | lbracket => "[" | rbracket => "]"
  | dot => "." | colon => ":" | comma => "," | semi => ";" | assign => "="
  | eof => "<eof>"
  | other text => text

/-- `unop`. -/
def unop : LuaToken → Option String
  | not => some "(!not "
  | minus => some "(!neg "
  | tilde => some "(!bnot "
  | hash => some "(!len "
  | _ => none

/-- `binop`. -/
def binop : LuaToken → Option String
  | plus => some "(!add "
  | minus => some "(!sub "
  | star => some "(!mul "
  | percent => some "(!mod "
  | caret => some "(!pow "
  | slash => some "(!div "
  | dslash => some "(!idiv "
  | amp => some "(!band "
  | bar => some "(!bor "
  | tilde => some "(!bxor "
  | shl => some "(!shl "
  | shr => some "(!shr "
  | concat => some "(!concat "
  | ne => some "(!ne "
  | eq => some "(!eq "
  | lt => some "(!lt "
  | le => some "(!le "
  | gt => some "(!gt "
  | ge => some "(!ge "
  | and => some "(!and "
  | or => some "(!or "
  | _ => none

/-- `priority`: left and right. -/
def priority : LuaToken → Option (Nat × Nat)
  | plus => some (10, 10)
  | minus => some (10, 10)
  | star => some (11, 11)
  | percent => some (11, 11)
  | caret => some (14, 13)
  | slash => some (11, 11)
  | dslash => some (11, 11)
  | amp => some (6, 6)
  | bar => some (4, 4)
  | tilde => some (5, 5)
  | shl => some (7, 7)
  | shr => some (7, 7)
  | concat => some (9, 8)
  | eq => some (3, 3)
  | lt => some (3, 3)
  | le => some (3, 3)
  | ne => some (3, 3)
  | gt => some (3, 3)
  | ge => some (3, 3)
  | and => some (2, 2)
  | or => some (1, 1)
  | _ => none

end LuaToken

/-! ## The parser's state -/

inductive LuaError
  /-- `P:syntaxerror`: the message, the line and the token it names. -/
  | syntaxerror (msg : String) (line : Nat) (near : LuaToken)
  /-- An error of a library function. -/
  | lib (error : LibError)
  /-- The bound on the steps of a loop is used up. -/
  | outOfFuel
  deriving DecidableEq, Repr

/-- The fields of `P`. `toks` are the tokens from the current one on, each with the line it
ends in, and `out` is what the strings in `self.out` make together. -/
structure LuaP where
  toks : List (LuaToken × Nat)
  linenumber : Nat
  out : GCstr

namespace LuaP

def token (p : LuaP) : LuaToken := (p.toks.head?.map Prod.fst).getD .eof

/-- The line the scanner is in once it has read the first of the tokens. -/
def lineOf (linenumber : Nat) (toks : List (LuaToken × Nat)) : Nat :=
  (toks.head?.map Prod.snd).getD linenumber

/-- `L:next`. -/
def next (p : LuaP) : LuaP :=
  { p with toks := p.toks.tail, linenumber := lineOf p.linenumber p.toks.tail }

/-- `L:lookahead`. -/
def lookahead (p : LuaP) : LuaToken × LuaP :=
  (p.next.token, { p with linenumber := p.next.linenumber })

/-- `self.out[#self.out+1] = s`. -/
def emit (p : LuaP) (s : GCstr) : LuaP := { p with out := p.out ++ s }

/-- The same for a literal. -/
def write (p : LuaP) (s : String) : LuaP := p.emit (.ofString s)

def syntaxerror {α : Type} (p : LuaP) (msg : String) : Except LuaError α :=
  .error (.syntaxerror msg p.linenumber p.token)

/-- `P:error_expected`. -/
def errorExpected {α : Type} (p : LuaP) (token : LuaToken) : Except LuaError α :=
  p.syntaxerror (token.text ++ " expected")

/-- `P:checknext`, with `P:check`. -/
def checknext (p : LuaP) (c : LuaToken) : Except LuaError LuaP :=
  if p.token = c then .ok p.next else p.errorExpected c

/-- `P:check_match`. -/
def checkMatch (p : LuaP) (what who : LuaToken) (line : Nat) : Except LuaError LuaP :=
  if p.token = what then .ok p.next
  else if line = p.linenumber then p.errorExpected what
  else p.syntaxerror <| what.text ++ " expected (to close " ++ who.text ++ " at line " ++
    toString line ++ ")"

/-- `P:str_checkname`. -/
def strCheckname (p : LuaP) : Except LuaError (GCstr × LuaP) :=
  match p.token with
  | .name seminfo => .ok (seminfo, p.next)
  | _ => p.syntaxerror "<name> expected"

/-- `quote`. -/
def quote (s : GCstr) : Except LuaError GCstr :=
  match tvmQuote s with
  | .ok t => .ok t
  | .error e => .error (.lib e)

end LuaP

/-- `P:body` of a function that is no method, from its line on. -/
class LuaBody where
  body : Nat → LuaP → Except LuaError LuaP

/-! ## Grammar rules -/

namespace LuaP

/-- `P:fieldsel`. -/
def fieldsel (p : LuaP) : Except LuaError (GCstr × LuaP) := do
  let (name, p) ← p.next.strCheckname
  let s ← quote name
  return (s, p)

/-- The tokens of a single value, and what is written for them. -/
def single : LuaToken → Except LuaError (Option GCstr)
  | .number seminfo => .ok (some seminfo)
  | .string seminfo => do
      let s ← quote seminfo
      return some s
  | .nil => .ok (some (.ofString "!nil"))
  | .true => .ok (some (.ofString "!true"))
  | .false => .ok (some (.ofString "!false"))
  | .dots => .ok (some (.ofString "!vararg"))
  | _ => .ok none

variable [LuaBody]

mutual
/-- `P:expr`. -/
def expr : Nat → Bool → Nat → LuaP → Except LuaError LuaP
  | 0, _, _, _ => .error .outOfFuel
  | steps + 1, one, limit, p => do
      let q ← operand steps one { p with out := [] }
      exprLoop steps limit p.out q.out q

/-- `P:expr` in front of its loop. -/
def operand : Nat → Bool → LuaP → Except LuaError LuaP
  | 0, _, _ => .error .outOfFuel
  | steps + 1, one, p =>
      match p.token.unop with
      | some uop => do
          let p ← expr steps false 12 (p.next.write uop)
          return p.write ")"
      | none => simpleexpr steps one p

/-- The loop of `P:expr`, with `sav` and `out`. -/
def exprLoop : Nat → Nat → GCstr → GCstr → LuaP → Except LuaError LuaP
  | 0, _, _, _, _ => .error .outOfFuel
  | steps + 1, limit, sav, out, p =>
      match p.token.binop, p.token.priority with
      | some op, some (left, right) =>
          if left > limit then do
            let p ← expr steps false right
              { p.next with out := .ofString op ++ out ++ .ofString " " }
            let p := p.write ")"
            exprLoop steps limit sav p.out p
          else .ok { p with out := sav ++ out }
      | _, _ => .ok { p with out := sav ++ out }

/-- `P:simpleexpr`. -/
def simpleexpr : Nat → Bool → LuaP → Except LuaError LuaP
  | 0, _, _ => .error .outOfFuel
  | steps + 1, one, p => do
      match ← single p.token with
      | some s => return (p.emit s).next
      | none =>
          if p.token = .lbrace then constructor steps p
          else if p.token = .function then LuaBody.body p.next.linenumber p.next
          else suffixedexp steps one p

/-- `P:suffixedexp`. -/
def suffixedexp : Nat → Bool → LuaP → Except LuaError LuaP
  | 0, _, _ => .error .outOfFuel
  | steps + 1, one, p => do
      let q ← primaryexpr steps { p with out := [] }
      suffixLoop steps one p.linenumber p.out q.out q

/-- The loop of `P:suffixedexp`, with `line`, `sav` and `out`. -/
def suffixLoop : Nat → Bool → Nat → GCstr → GCstr → LuaP → Except LuaError LuaP
  | 0, _, _, _, _, _ => .error .outOfFuel
  | steps + 1, one, line, sav, out, p =>
      match p.token with
      | .dot => do
          let (s, p) ← p.fieldsel
          suffixLoop steps one line sav
            (.ofString "(!index " ++ out ++ .ofString " " ++ s ++ .ofString ")") p
      | .lbracket => do
          let p ← yindex steps { p with out := .ofString "(!index " ++ out ++ .ofString " " }
          let p := p.write ")"
          suffixLoop steps one line sav p.out p
      | .colon => do
          let call := if one then "(!callmeth1 " else "(!callmeth "
          let (name, p) ← p.next.strCheckname
          let p ← funcargs steps line
            { p with out := .ofString call ++ out ++ .ofString " " ++ name ++ .ofString " " }
          let p := p.write ")"
          suffixLoop steps one line sav p.out p
      | .lparen | .lbrace | .string _ => do
          let call := if one then "(!call1 " else "(!call "
          let p ← funcargs steps line { p with out := .ofString call ++ out ++ .ofString " " }
          let p := p.write ")"
          suffixLoop steps one line sav p.out p
      | _ => .ok { p with out := sav ++ out }

/-- `P:primaryexpr`. -/
def primaryexpr : Nat → LuaP → Except LuaError LuaP
  | 0, _ => .error .outOfFuel
  | steps + 1, p =>
      match p.token with
      | .lparen => do
          let q ← expr steps true 0 p.next
          q.checkMatch .rparen .lparen p.linenumber
      | .name seminfo => .ok (p.next.emit seminfo)
      | _ => p.syntaxerror "unexpected symbol"

/-- `P:funcargs`. -/
def funcargs : Nat → Nat → LuaP → Except LuaError LuaP
  | 0, _, _ => .error .outOfFuel
  | steps + 1, line, p =>
      match p.token with
      | .lparen => do
          let p ← if p.next.token ≠ .rparen then explist steps p.next else .ok p.next
          p.checkMatch .rparen .lparen line
      | .lbrace => constructor steps p
      | .string seminfo => do
          let s ← quote seminfo
          return (p.emit s).next
      | _ => p.syntaxerror "function arguments expected"

/-- `P:explist`. -/
def explist : Nat → LuaP → Except LuaError LuaP
  | 0, _ => .error .outOfFuel
  | steps + 1, p => do
      let p ← expr steps false 0 p
      if p.token = .comma then explist steps (p.next.write " ") else return p

/-- `P:constructor`. -/
def constructor : Nat → LuaP → Except LuaError LuaP
  | 0, _ => .error .outOfFuel
  | steps + 1, p => do
      let q ← p.checknext .lbrace
      let q ← fields steps (q.write "(")
      let q ← q.checkMatch .rbrace .lbrace p.linenumber
      return q.write ")"

/-- The loop of `P:constructor`. -/
def fields : Nat → LuaP → Except LuaError LuaP
  | 0, _ => .error .outOfFuel
  | steps + 1, p =>
      if p.token = .rbrace then .ok p
      else do
        let p ← field steps p
        if p.token = .comma ∨ p.token = .semi then fields steps (p.write " ").next else return p

/-- `P:field`. -/
def field : Nat → LuaP → Except LuaError LuaP
  | 0, _ => .error .outOfFuel
  | steps + 1, p =>
      match p.token with
      | .name _ =>
          let (ahead, p) := p.lookahead
          if ahead ≠ .assign then expr steps false 0 p else recfield steps p
      | .lbracket => recfield steps p
      | _ => expr steps false 0 p

/-- `P:recfield`. -/
def recfield : Nat → LuaP → Except LuaError LuaP
  | 0, _ => .error .outOfFuel
  | steps + 1, p => do
      let p ← (match p.token with
        | .name seminfo => do
            let s ← quote seminfo
            return p.next.emit s
        | _ => yindex steps p)
      let p ← p.checknext .assign
      expr steps true 0 (p.write ": ")

/-- `P:yindex`. -/
def yindex : Nat → LuaP → Except LuaError LuaP
  | 0, _ => .error .outOfFuel
  | steps + 1, p => do
      let p ← expr steps true 0 p.next
      p.checknext .rbracket
end

end LuaP

end TvmJit
