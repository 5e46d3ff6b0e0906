import TvmJit.Lex.Reader
import TvmJit.Lex.Quote

/-! Op trees: what `tvm.parse` builds from a text and what `tostring` writes for it.
The layout of tables and the text of numbers are the parameters `LuaTable` and
`Tostring`. -/

namespace TvmJit

/-! ## Op trees -/

mutual
/-- What `P:expr` returns. -/
inductive OpExpr
  | name (s : GCstr)
  | number (n : Num)
  /-- A table of `tvm.str`. -/
  | str (s : GCstr)
  /-- A table of `tvm.op.new`: its entries in the order they were added. -/
  | op (o : List OpEntry)

/-- An entry of a table. A number that is an integer is stored as one. -/
inductive OpEntry
  | item (k : Int) (v : OpExpr)
  | pair (k v : OpExpr)
end

/-- The table of an op. -/
abbrev Op := List OpEntry

/-! ## Numbers as keys -/

namespace Num

/-- The C comparison `n < 0`. -/
def isNegative (n : Num) : Bool := n.msb && !n.isZero && !n.isNan

/-- A double has a fraction. -/
def hasFraction (n : Num) : Bool :=
  if n.expBits < 1023 then !n.isZero
  else n.expBits < 1075 && (2 ^ 52 + n.mantBits) % 2 ^ (1075 - n.expBits) != 0

/-- The C comparison `n > k` with an integer that is not negative. -/
def exceeds (n : Num) (k : Nat) : Bool :=
  !n.msb && !n.isNan &&
    (n.expBits == 2047 || n.truncAbs > k || (n.truncAbs == k && n.hasFraction))

end Num

/-- `tostring` of a number. -/
class Tostring where
  tostring : Num → GCstr

/-- What a table shows of its layout. -/
class LuaTable where
  /-- The operator `#`. -/
  len : Op → Nat
  /-- The order `pairs` goes through the entries in, as their places. -/
  order : Op → List Nat

namespace OpExpr

/-- `rawequal` of two keys. Tables are different objects. -/
def rawequal : OpExpr → OpExpr → Bool
  | .name s, .name s' => s == s'
  | .number n, .number n' => n.eq n'
  | _, _ => false

def typeName : OpExpr → String
  | .name _ => "string"
  | .number _ => "number"
  | .str _ => "table"
  | .op _ => "table"

end OpExpr

namespace OpEntry

def sameKey : OpEntry → OpEntry → Bool
  | .item k _, .item k' _ => k == k'
  | .pair k _, .pair k' _ => k.rawequal k'
  | _, _ => false

end OpEntry

namespace Op

/-- `o[k]` for an integer. -/
def get (o : Op) (k : Int) : Option OpExpr :=
  o.findSome? fun
    | .item k' v => if k' = k then some v else none
    | .pair _ _ => none

/-- `o[s]` for a string, of the table itself. -/
def field (o : Op) (s : GCstr) : Option OpExpr :=
  o.findSome? fun
    | .pair (.name s') v => if s' = s then some v else none
    | _ => none

/-- Store an entry. -/
def set (o : Op) (entry : OpEntry) : Op :=
  if o.any entry.sameKey then o.map fun entry' => if entry.sameKey entry' then entry else entry'
  else o ++ [entry]

/-- `o[k] = v`. -/
def setIndex (o : Op) (k v : OpExpr) : Except LibError Op :=
  match k with
  | .number n =>
      if (Num.ofInt n.num2int).eq n then .ok (o.set (.item n.num2int v))
      else if n.isNan then .error (.msg "table index is NaN")
      else .ok (o.set (.pair k v))
  | _ => .ok (o.set (.pair k v))

/-- A method of `tvm.op` called on `o`, which may have an entry of its name. -/
def callMethod (o : Op) (name : String) (method : Except LibError Op) : Except LibError Op :=
  match o.field (.ofString name) with
  | some v => .error <| .msg <|
      "attempt to call method '" ++ name ++ "' (a " ++ v.typeName ++ " value)"
  | none => method

/-- `push`. -/
def push [LuaTable] (o : Op) (v : OpExpr) : Except LibError Op :=
  o.callMethod "push" (o.setIndex (.number (Num.ofInt (LuaTable.len o + 1))) v)

/-- `addkv`. -/
def addkv (o : Op) (k v : OpExpr) : Except LibError Op :=
  o.callMethod "addkv" (o.setIndex k v)

end Op

/-! ## Parser -/

namespace P

/-- `P:syntaxerror`. -/
def syntaxerror {α : Type} (p : P) (tok : Token) (msg : String) : Except ReaderError α :=
  p.lexerror msg tok.kind

def liftLib {α : Type} : Except LibError α → Except ReaderError α
  | .ok a => .ok a
  | .error e => .error (.lib e)

section

variable [Tonumber] [LuaTable] (fuel : Nat)

mutual
/-- `P:expr`, with `self.token` and `self.seminfo`. -/
def expr : Nat → Token → P → Except ReaderError (OpExpr × Token × P)
  | 0, _, _ => .error .outOfFuel
  | steps + 1, tok, p =>
      match tok with
      | .lparen => table steps p
      | .string s => do
          let (tok, p) ← p.next fuel
          return (.str s, tok, p)
      | .number v => do
          let (tok, p) ← p.next fuel
          return (.number v, tok, p)
      | .name v => do
          let (tok, p) ← p.next fuel
          return (.name v, tok, p)
      | tok => p.syntaxerror tok "<expr> expected"

/-- `P:table`. -/
def table : Nat → P → Except ReaderError (OpExpr × Token × P)
  | 0, _ => .error .outOfFuel
  | steps + 1, p => do
      let (tok, p) ← p.next fuel
      let (t, p) ← tableLoop steps [] tok p
      let (tok, p) ← p.next fuel
      return (.op t, tok, p)

/-- The loop of `P:table`. -/
def tableLoop : Nat → Op → Token → P → Except ReaderError (Op × P)
  | 0, _, _, _ => .error .outOfFuel
  | steps + 1, t, tok, p =>
      if tok = .rparen then .ok (t, p)
      else do
        let (v, tok, p) ← expr steps tok p
        if tok = .colon then
          let (tok, p) ← p.next fuel
          let (v', tok, p) ← expr steps tok p
          let t ← liftLib (t.addkv v v')
          tableLoop steps t tok p
        else
          let t ← liftLib (t.push v)
          tableLoop steps t tok p
end

/-- The loop of `parse`. -/
def opsLoop : Nat → List OpExpr → Token → P → Except ReaderError (List OpExpr)
  | 0, _, _, _ => .error .outOfFuel
  | steps + 1, ast, tok, p =>
      if tok = .lparen then do
        let (t, tok, p) ← table fuel steps p
        opsLoop steps (ast ++ [t]) tok p
      else if tok = .eof then .ok ast
      else p.syntaxerror tok "<eof> expected"

end

end P

/-- `tvm.parse`, every loop and recursion of which may take `fuel` steps: the items of
the `ops` it returns. -/
def tvmParse [Tonumber] [LuaTable] (fuel : Nat) (s : GCstr) : Except ReaderError (List OpExpr) := do
  let p ← (P.setinput s).shebang fuel
  let (tok, p) ← p.next fuel
  P.opsLoop fuel fuel [] tok p

/-! ## Printer -/

/-- An entry with what `tostring` makes of its key and its value. -/
structure OpRow where
  entry : OpEntry
  key : Except LibError GCstr
  value : Except LibError GCstr

namespace OpEntry

/-- The value of the key `k`. -/
def isItem (k : Int) : OpEntry → Bool
  | .item k' _ => k' == k
  | .pair _ _ => false

/-- The entries `op_mt.__tostring` writes with their key, in a table of length `len`. -/
def isPair (len : Nat) : OpEntry → Bool
  | .item k _ => k < 0 || k > len
  | .pair (.number n) _ => n.isNegative || n.exceeds len
  | .pair _ _ => true

end OpEntry

/-- `need_newline`. -/
def needNewline : Option OpExpr → Bool
  | some (.name s) => s == .ofString "!line" || s == .ofString "!do"
  | _ => false

/-- `table.concat` with a space. -/
def tconcat (t : List GCstr) : GCstr := List.intercalate [ch ' '] t

/-- `op_mt.__tostring`. -/
def opTostring [LuaTable] (o : Op) (rows : List OpRow) : Except LibError GCstr := do
  let index (k : Int) : Except LibError GCstr :=
    match rows.find? (·.entry.isItem k) with
    | some row => row.value
    | none => .ok (.ofString "nil")
  let zero ← (if (o.get 0).isSome then do
      let v ← index 0
      return [.ofString "0: " ++ v]
    else return [])
  let items ← (List.range (LuaTable.len o)).mapM fun (i : Nat) => index (i + 1)
  let pairs ← (((LuaTable.order o).filterMap (rows[·]?)).filter
    (·.entry.isPair (LuaTable.len o))).mapM fun row => do
      let k ← row.key
      let v ← row.value
      return k ++ .ofString ": " ++ v
  let start := if needNewline (o.get 1) then .ofString "\n(" else .ofString "("
  return start ++ tconcat (zero ++ items ++ pairs) ++ .ofString ")"

section

variable [Tostring] [LuaTable]

mutual
/-- `tostring` of what `P:expr` returns. -/
def OpExpr.tostring : OpExpr → Except LibError GCstr
  | .name s => .ok s
  | .number n => .ok (Tostring.tostring n)
  | .str s => tvmQuote s
  | .op o => opTostring o (rows o)

def OpEntry.row : OpEntry → OpRow
  | .item k v => ⟨.item k v, .ok (Tostring.tostring (Num.ofInt k)), v.tostring⟩
  | .pair k v => ⟨.pair k v, k.tostring, v.tostring⟩

def rows : List OpEntry → List OpRow
  | [] => []
  | entry :: rest => entry.row :: rows rest
end

/-- `ops_mt.__tostring`. -/
def opsTostring (ast : List OpExpr) : Except LibError GCstr := do
  let texts ← ast.mapM OpExpr.tostring
  return texts.flatten

end

end TvmJit
