import TvmJit.Lex.Scanner
import TvmJit.Utf8

/-! The TP scanner of `parse.lua`: `P:next` with the methods it calls. Converting a
literal is the parameter `Tonumber`. -/

namespace TvmJit

/-- `tonumber` of a string. -/
class Tonumber where
  tonumber : GCstr → Option Num

inductive ReaderError
  /-- `P:_lexerror`: the message, the line and the text it names. -/
  | lex (msg : String) (line : Int) (near : GCstr)
  /-- An error of a library function. -/
  | lib (error : LibError)
  /-- The bound on the steps of a loop is used up. -/
  | outOfFuel
  deriving DecidableEq, Repr

/-- The scanner's fields of `P`. `z` is what `self.z` has from `self.pos` on, and
`buff` what the strings in `self.buff` make together. -/
structure P where
  z : GCstr
  linenumber : Int := 1
  lastline : Int := 1
  buff : GCstr := []
  deriving DecidableEq, Repr

/-- `find`, of a single character. No set contains the text `<eof>`. -/
def find (set : GCstr) (c : LexChar) : Bool := c.any set.contains

/-- A fact about the bytes of a set, checked one by one. -/
@[elab_as_elim] theorem find_forall {motive : UInt8 → Prop} {set bytes : GCstr} {b : UInt8}
    (isSet : set = bytes) (found : find set (some b) = true)
    (each : ∀ i : Fin bytes.length, motive bytes[i]) : motive b := by
  have member : b ∈ bytes := by simpa [find, isSet] using found
  obtain ⟨i, inside, rfl⟩ := List.mem_iff_getElem.mp member
  exact each ⟨i, inside⟩

def digitSign : GCstr := .ofString "0123456789+-"
def sign : GCstr := .ofString "+-"
def xdigit : GCstr := .ofString "ABCDEFabcdef0123456789"
def newline : GCstr := .ofString "\n\r"
def space : GCstr := [ch ' ', 12, ch '\t', 11]
def notName : GCstr := .ofString "():" ++ space ++ newline

theorem digitSign_bytes : digitSign = [48, 49, 50, 51, 52, 53, 54, 55, 56, 57, 43, 45] := by
  decide +kernel

theorem sign_bytes : sign = [43, 45] := by decide +kernel

theorem xdigit_bytes : xdigit = [65, 66, 67, 68, 69, 70, 97, 98, 99, 100, 101, 102,
    48, 49, 50, 51, 52, 53, 54, 55, 56, 57] := by
  decide +kernel

theorem newline_bytes : newline = [10, 13] := by decide +kernel

theorem notName_bytes : notName = [40, 41, 58, 32, 12, 9, 11, 10, 13] := by decide +kernel

namespace P

/-- `self.current`, none for `<eof>`. -/
def current (p : P) : LexChar := p.z.head?

/-- `P:_next`. -/
def next_ (p : P) : P := { p with z := p.z.tail }

/-- `P:_save`. -/
def save (p : P) (c : GCstr) : P := { p with buff := p.buff ++ c }

/-- `P:_save_and_next`. The end of input is saved as its name. -/
def saveAndNext (p : P) : P :=
  (p.save (p.current.elim (.ofString "<eof>") fun b => [b])).next_

/-- `P:_lexerror`. The text of a name, string or number is what was saved. -/
def lexerror {α : Type} (p : P) (msg : String) (token : LexToken) : Except ReaderError α :=
  .error <| .lex msg p.linenumber <|
    match token with
    | .lparen => .ofString "("
    | .rparen => .ofString ")"
    | .colon => .ofString ":"
    | .eof => .ofString "<eof>"
    | .number | .name | .string => p.buff

/-- `P:_inclinenumber`. -/
def inclinenumber (p : P) : P :=
  let old := p.current
  let p := p.next_
  let p := if find newline p.current && p.current != old then p.next_ else p
  { p with linenumber := p.linenumber + 1 }

/-! ## Numbers -/

/-- `P:_check_next`. -/
def checkNext (p : P) (set : GCstr) : Bool × P :=
  if find set p.current then (true, p.saveAndNext) else (false, p)

/-- The loop of `P:_read_numeral`. -/
def numeralLoop (expo : GCstr) : Nat → P → Except ReaderError P
  | 0, _ => .error .outOfFuel
  | fuel + 1, p =>
      let (isExpo, q) := p.checkNext expo
      if isExpo then numeralLoop expo fuel (q.checkNext sign).2
      else if find xdigit p.current || p.current == some (ch '.') then
        numeralLoop expo fuel p.saveAndNext
      else .ok p

/-- `P:_read_numeral`. -/
def readNumeral [Tonumber] (fuel : Nat) (p : P) : Except ReaderError (Token × P) := do
  let p := if find sign p.current then p.saveAndNext else p
  let first := p.current
  let p := p.saveAndNext
  let (hex, p) := if first = some (ch '0') then p.checkNext (.ofString "Xx") else (false, p)
  let p ← numeralLoop (if hex then .ofString "Pp" else .ofString "Ee") fuel p
  match Tonumber.tonumber p.buff with
  | some val => return (.number val, p)
  | none => p.lexerror "malformed number" .number

/-! ## Strings -/

/-- `tonumber(c, 16)` of a hexadecimal digit. -/
def hexValue (c : UInt8) : Nat :=
  if ch '0' ≤ c ∧ c ≤ ch '9' then c.toNat - 48 else (c ||| 0x20).toNat - 87

/-- `P:_gethexa`. -/
def gethexa (p : P) : Except ReaderError (Nat × P) :=
  let p := p.next_
  match p.current with
  | some c =>
      if find xdigit (some c) then .ok (hexValue c, p)
      else p.lexerror "hexadecimal digit expected" .string
  | none => p.lexerror "hexadecimal digit expected" .string

/-- `P:_readhexaesc`. -/
def readhexaesc (p : P) : Except ReaderError (GCstr × P) := do
  let (r, p) ← p.gethexa
  let (d, p) ← p.gethexa
  let r := 16 * r + d
  return ([UInt8.ofNat r], p)

/-- `P:_readuniesc`. -/
def readuniesc (p : P) : Except ReaderError (GCstr × P) := do
  let (r, p) ← p.gethexa
  let (d, p) ← p.gethexa
  let r := 16 * r + d
  let (d, p) ← p.gethexa
  let r := 16 * r + d
  let (d, p) ← p.gethexa
  let r := 16 * r + d
  match tvmWchar [(r : Int)] with
  | .ok c => return (c, p)
  | .error error => throw (.lib error)

/-- The escape whose backslash was just skipped. -/
def escape (p : P) : Except ReaderError P :=
  match p.current with
  | none => .ok p  -- Will raise an error next loop.
  | some c =>
      if let some b := Lexer.simpleEscape c then .ok (p.next_.save [b])
      else if c = ch 'x' then do
        let (c, p) ← p.readhexaesc
        return p.next_.save c
      else if c = ch 'u' then do
        let (c, p) ← p.readuniesc
        return p.next_.save c
      else if c = ch '\n' ∨ c = ch '\r' then .ok (p.inclinenumber.save [ch '\n'])
      else p.lexerror "invalid escape sequence" .string

/-- The loop of `P:_read_string`. -/
def stringLoop : Nat → P → Except ReaderError P
  | 0, _ => .error .outOfFuel
  | fuel + 1, p =>
      if p.current = some (ch '"') then .ok p
      else if p.current = none then p.lexerror "unfinished string" .eof
      else if p.current = some (ch '\\') then do
        let p ← p.next_.escape
        stringLoop fuel p
      else if find newline p.current then stringLoop fuel (p.inclinenumber.save [ch '\n'])
      else stringLoop fuel p.saveAndNext

/-- `P:_read_string`: what was saved, without the two delimiters. -/
def readString (fuel : Nat) (p : P) : Except ReaderError (Token × P) := do
  let p ← stringLoop fuel p.saveAndNext
  let p := p.saveAndNext
  return (.string p.buff.tail.dropLast, p)

/-! ## Names -/

/-- The loop of `P:_read_name`. It has no case for the end of input. -/
def nameLoop : Nat → P → Except ReaderError P
  | 0, _ => .error .outOfFuel
  | fuel + 1, p =>
      if find notName p.current then .ok p
      else if p.current = some (ch '\\') then nameLoop fuel p.next_.saveAndNext
      else nameLoop fuel p.saveAndNext

/-- `P:_read_name`. -/
def readName (fuel : Nat) (p : P) : Except ReaderError (Token × P) := do
  let p ← nameLoop fuel p
  return (.name p.buff, p)

/-! ## Tokens -/

/-- The rest of a comment. -/
def comment : Nat → P → Except ReaderError P
  | 0, _ => .error .outOfFuel
  | fuel + 1, p =>
      if !find newline p.current && p.current != none then comment fuel p.next_ else .ok p

/-- The loop of `P:next`. -/
def nextLoop [Tonumber] (steps : Nat) : Nat → P → Except ReaderError (Token × P)
  | 0, _ => .error .outOfFuel
  | fuel + 1, p =>
      if find newline p.current then nextLoop steps fuel p.inclinenumber
      else if find space p.current then nextLoop steps fuel p.next_
      else if p.current = some (ch ';') then do
        let p ← comment steps p.next_
        nextLoop steps fuel p
      else if p.current = some (ch '(') then .ok (.lparen, p.next_)
      else if p.current = some (ch ')') then .ok (.rparen, p.next_)
      else if p.current = some (ch ':') then .ok (.colon, p.next_)
      else if p.current = some (ch '"') then p.readString steps
      else if find digitSign p.current then p.readNumeral steps
      else if p.current = none then .ok (.eof, p)
      else p.readName steps

/-- `P:next`, every loop of which may take `fuel` steps. -/
def next [Tonumber] (fuel : Nat) (p : P) : Except ReaderError (Token × P) :=
  nextLoop fuel fuel { p with lastline := p.linenumber, buff := [] }

/-! ## Setup -/

/-- `P:setinput`. -/
def setinput (z : GCstr) : P := { z := z }

/-- `P:BOM`. -/
def bom (p : P) : P :=
  if p.current = some 0xEF then
    let p := p.next_
    if p.current = some 0xBB then
      let p := p.next_
      if p.current = some 0xBF then p.next_ else p
    else p
  else p

/-- The loop of `P:shebang`. It has no case for the end of input. -/
def shebangLoop : Nat → P → Except ReaderError P
  | 0, _ => .error .outOfFuel
  | fuel + 1, p => if p.current ≠ some (ch '\n') then shebangLoop fuel p.next_ else .ok p

/-- `P:shebang`. -/
def shebang (fuel : Nat) (p : P) : Except ReaderError P := do
  let p := p.bom
  if p.current = some (ch '#') then
    let p ← shebangLoop fuel p
    return p.inclinenumber
  return p

end P

end TvmJit
