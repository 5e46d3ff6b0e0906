import TvmJit.Token

/-! The TP scanner of `tj_lex.c`: the input a reader delivers in pieces, and
`lj_lex_next` with the functions it is made of. The scanning of a number literal
is the parameter `StrScan`. -/

namespace TvmJit

/-! ## Character types -/

def LJ_CHAR_SPACE : Nat := 0x02
def LJ_CHAR_DIGIT : Nat := 0x08
def LJ_CHAR_XDIGIT : Nat := 0x10
def LJ_CHAR_IDENT : Nat := 0x80

/-- `lj_char_bits`; the first entry is the one of -1. -/
def ljCharBits : List Nat :=
   [0,
    1, 1, 1, 1, 1, 1, 1, 1, 1, 3, 3, 3, 3, 3, 1, 1,
    1, 1, 1, 1, 1, 1, 1, 1, 1, 1, 1, 1, 1, 1, 1, 1,
    2, 4, 4, 4, 4, 4, 4, 4, 4, 4, 4, 4, 4, 4, 4, 4,
    152, 152, 152, 152, 152, 152, 152, 152, 152, 152, 4, 4, 4, 4, 4, 4,
    4, 176, 176, 176, 176, 176, 176, 160, 160, 160, 160, 160, 160, 160, 160, 160,
    160, 160, 160, 160, 160, 160, 160, 160, 160, 160, 160, 4, 4, 4, 4, 132,
    4, 208, 208, 208, 208, 208, 208, 192, 192, 192, 192, 192, 192, 192, 192, 192,
    192, 192, 192, 192, 192, 192, 192, 192, 192, 192, 192, 4, 4, 4, 4, 1,
    128, 128, 128, 128, 128, 128, 128, 128, 128, 128, 128, 128, 128, 128, 128, 128,
    128, 128, 128, 128, 128, 128, 128, 128, 128, 128, 128, 128, 128, 128, 128, 128,
    128, 128, 128, 128, 128, 128, 128, 128, 128, 128, 128, 128, 128, 128, 128, 128,
    128, 128, 128, 128, 128, 128, 128, 128, 128, 128, 128, 128, 128, 128, 128, 128,
    128, 128, 128, 128, 128, 128, 128, 128, 128, 128, 128, 128, 128, 128, 128, 128,
    128, 128, 128, 128, 128, 128, 128, 128, 128, 128, 128, 128, 128, 128, 128, 128,
    128, 128, 128, 128, 128, 128, 128, 128, 128, 128, 128, 128, 128, 128, 128, 128,
    128, 128, 128, 128, 128, 128, 128, 128, 128, 128, 128, 128, 128, 128, 128, 128]

/-- `LexChar`: a byte, or none for `LEX_EOF`, which is -1. -/
abbrev LexChar := Option UInt8

/-- `lj_char_isa`. -/
def ljCharIsa (c : LexChar) (t : Nat) : Bool :=
  ljCharBits.getD (c.elim 0 fun b => b.toNat + 1) 0 &&& t != 0

def ljCharIsspace (c : LexChar) : Bool := ljCharIsa c LJ_CHAR_SPACE
def ljCharIsdigit (c : LexChar) : Bool := ljCharIsa c LJ_CHAR_DIGIT
def ljCharIsxdigit (c : LexChar) : Bool := ljCharIsa c LJ_CHAR_XDIGIT
def ljCharIsident (c : LexChar) : Bool := ljCharIsa c LJ_CHAR_IDENT

/-- A fact about all bytes, checked one by one. -/
@[elab_as_elim] theorem byte_forall {motive : UInt8 → Prop} (b : UInt8)
    (each : ∀ n : Fin 256, motive (UInt8.ofNat n)) : motive b := by
  have this := each ⟨b.toNat, b.toNat_lt⟩
  rwa [UInt8.ofNat_toNat] at this

/-- What the table says of a class it says of a byte. -/
theorem ljCharIsa_byte {t : Nat} (inClass : Nat → Bool)
    (table : ljCharBits.tail.map (fun bits => bits &&& t != 0) = (List.range 256).map inClass)
    (b : UInt8) : ljCharIsa (some b) t = inClass b.toNat := by
  have entry := congrArg (fun bits : List Bool => bits[b.toNat]?) table
  have isByte := b.toNat_lt
  have size : ljCharBits.length = 257 := by decide +kernel
  have inTable : b.toNat + 1 < ljCharBits.length := by omega
  simp only [List.getElem?_map, List.getElem?_tail, List.getElem?_eq_getElem inTable,
    List.getElem?_range isByte, Option.map_some, Option.some.injEq] at entry
  rw [ljCharIsa, List.getD_eq_getElem?_getD]
  change (ljCharBits[b.toNat + 1]?.getD 0 &&& t != 0) = _
  rw [List.getElem?_eq_getElem inTable]
  exact entry

theorem ljCharIsspace_byte (b : UInt8) :
    ljCharIsspace (some b) = (b.toNat == 32 || 9 ≤ b.toNat && b.toNat ≤ 13) :=
  ljCharIsa_byte (fun n => n == 32 || 9 ≤ n && n ≤ 13) (by decide +kernel) b

theorem ljCharIsxdigit_byte (b : UInt8) : ljCharIsxdigit (some b) =
    (48 ≤ b.toNat && b.toNat ≤ 57 || 65 ≤ b.toNat && b.toNat ≤ 70 ||
      97 ≤ b.toNat && b.toNat ≤ 102) :=
  ljCharIsa_byte (fun n => 48 ≤ n && n ≤ 57 || 65 ≤ n && n ≤ 70 || 97 ≤ n && n ≤ 102)
    (by decide +kernel) b

theorem ljCharIsdigit_byte (b : UInt8) :
    ljCharIsdigit (some b) = (48 ≤ b.toNat && b.toNat ≤ 57) :=
  ljCharIsa_byte (fun n => 48 ≤ n && n ≤ 57) (by decide +kernel) b

/-- The byte of an ASCII character. -/
def ch (c : Char) : UInt8 := c.toNat.toUInt8

theorem delimiter_bytes : GCstr.ofString " " = [ch ' '] ∧ GCstr.ofString "(" = [ch '('] ∧
    GCstr.ofString ")" = [ch ')'] := by
  decide +kernel

theorem blank_bytes : GCstr.ofString " " = [ch ' '] := delimiter_bytes.1

theorem lparen_bytes : GCstr.ofString "(" = [ch '('] := delimiter_bytes.2.1

theorem rparen_bytes : GCstr.ofString ")" = [ch ')'] := delimiter_bytes.2.2

/-! ## Input -/

/-- What one call of the reader delivers. An empty piece would mean the end. -/
structure Piece where
  first : UInt8
  others : GCstr
  deriving DecidableEq, Repr

def Piece.bytes (piece : Piece) : GCstr := piece.first :: piece.others

/-- The current character with the bytes from `ls->p` to `ls->pe` and the pieces
`ls->rfunc` has still to deliver. At the end of input there are none. -/
inductive LexInput
  | eof
  | char (c : UInt8) (p : GCstr) (rdata : List Piece)
  deriving DecidableEq, Repr

namespace LexInput

/-- `ls->c`. -/
def c : LexInput → LexChar
  | .eof => none
  | .char c _ _ => some c

/-- `lex_more`. -/
def more : List Piece → LexInput
  | [] => .eof
  | piece :: rdata => .char piece.first piece.others rdata

/-- `lex_next`. -/
def next : LexInput → LexInput
  | .eof => .eof
  | .char _ (c :: p) rdata => .char c p rdata
  | .char _ [] rdata => more rdata

/-- The bytes from the current character on. -/
def rest : LexInput → GCstr
  | .eof => []
  | .char c p rdata => c :: p ++ rdata.flatMap Piece.bytes

end LexInput

/-! ## Scanner state -/

inductive LexToken
  | lparen | rparen | colon | number | name | string | eof
  deriving DecidableEq, Repr

def Token.kind : Token → LexToken
  | .lparen => .lparen
  | .rparen => .rparen
  | .colon => .colon
  | .number _ => .number
  | .cdata _ => .number
  | .name _ => .name
  | .string _ => .string
  | .eof => .eof

inductive LexErrMsg
  | xlines | xnumber | xstr | xesc
  deriving DecidableEq, Repr

inductive LexError
  /-- `lj_lex_error` at a line, with the text it names. -/
  | lex (em : LexErrMsg) (line : BCLine) (near : Option GCstr)
  /-- Bytecode after a header (`LJ_ERR_BCBAD`). -/
  | bcbad
  /-- The bound on the steps of a loop is used up. -/
  | outOfFuel
  deriving DecidableEq, Repr

/-- The fields of `LexState` the scanner works on. `tok` is none before the first
token. -/
structure Lexer where
  input : LexInput
  sb : GCstr := []
  tok : Option LexToken := none
  linenumber : BCLine := 1
  lastline : BCLine := 1
  deriving DecidableEq, Repr

def LJ_MAX_LINE : Int := 0x7fffff00

namespace Lexer

def c (ls : Lexer) : LexChar := ls.input.c

/-- `lex_next`. -/
def next (ls : Lexer) : Lexer := { ls with input := ls.input.next }

/-- `lex_save`. -/
def save (ls : Lexer) (b : UInt8) : Lexer := { ls with sb := ls.sb ++ [b] }

/-- `lex_savenext`. The end of input is saved as the byte of -1. -/
def savenext (ls : Lexer) : Lexer := (ls.save (ls.c.getD 0xFF)).next

/-- `lex_iseol`. -/
def iseol (ls : Lexer) : Bool := ls.c == some (ch '\n') || ls.c == some (ch '\r')

/-- `lj_lex_error`. The text of a name, string or number is what was saved. -/
def error {α : Type} (ls : Lexer) (tok : Option LexToken) (em : LexErrMsg) : Except LexError α :=
  .error <| .lex em ls.linenumber <| tok.map fun
    | .lparen => .ofString "("
    | .rparen => .ofString ")"
    | .colon => .ofString ":"
    | .eof => .ofString "<eof>"
    | .number | .name | .string => ls.sb

/-- `lex_newline`. -/
def newline (ls : Lexer) : Except LexError Lexer :=
  let old := ls.c
  let ls := ls.next
  let ls := if ls.iseol && ls.c != old then ls.next else ls
  let ls := { ls with linenumber := ls.linenumber + 1 }
  if ls.linenumber ≥ LJ_MAX_LINE then ls.error ls.tok .xlines else .ok ls

end Lexer

/-! ## Numbers -/

/-- What `lj_strscan_scan` makes of a literal. -/
inductive StrScanFmt
  | error
  | num (n : Num)
  | i64 (value : BitVec 64)
  | u64 (value : BitVec 64)
  | imag (n : Num)
  deriving DecidableEq, Repr

/-- `lj_strscan_scan`, with the options `lex_number` gives it. -/
class StrScan where
  scan : GCstr → StrScanFmt

namespace Lexer

/-- The loop of `lex_number`: `c` is the character before the current one and
`xp` the letter of the exponent. -/
def numberLoop (xp : UInt8) : Nat → LexChar → Lexer → Except LexError Lexer
  | 0, _, _ => .error .outOfFuel
  | fuel + 1, c, ls =>
      if ljCharIsident ls.c || ls.c == some (ch '.') ||
          ((ls.c == some (ch '-') || ls.c == some (ch '+')) &&
            c.any fun b => b ||| 0x20 == xp) then
        numberLoop xp fuel ls.c ls.savenext
      else .ok ls

/-- `lex_number`. -/
def number [StrScan] (fuel : Nat) (ls : Lexer) : Except LexError (Token × Lexer) := do
  let ls := if ls.c == some (ch '+') || ls.c == some (ch '-') then ls.savenext else ls
  let c := ls.c
  let zero := c == some (ch '0')
  let ls := if zero then ls.savenext else ls
  let xp := if zero && ls.c.any fun b => b ||| 0x20 == ch 'x' then ch 'p' else ch 'e'
  let ls ← numberLoop xp fuel c ls
  match StrScan.scan ls.sb with
  | .num n => return (.number n, ls)
  | .i64 value => return (.cdata (.int64 value), ls)
  | .u64 value => return (.cdata (.uint64 value), ls)
  | .imag n => return (.cdata (.complex n), ls)
  | .error => ls.error (some .number) .xnumber

/-! ## Strings -/

/-- The letters an escape writes a byte with. -/
def simpleEscape (c : UInt8) : Option UInt8 :=
  if c = ch 'a' then some 7
  else if c = ch 'b' then some 8
  else if c = ch 'f' then some 12
  else if c = ch 'n' then some 10
  else if c = ch 'r' then some 13
  else if c = ch 't' then some 9
  else if c = ch 'v' then some 11
  else if c = ch '\\' ∨ c = ch '"' ∨ c = ch '\'' then some c
  else none

/-- The next `n` characters as hexadecimal digits, after the digits of `value`. -/
def hexDigits : Nat → Nat → Lexer → Except LexError (Nat × Lexer)
  | 0, value, ls => .ok (value, ls)
  | n + 1, value, ls =>
      let ls := ls.next
      let digit := (ls.c.getD 0xFF &&& 15).toNat
      if ljCharIsdigit ls.c then hexDigits n (value * 16 + digit) ls
      else if ljCharIsxdigit ls.c then hexDigits n (value * 16 + (digit + 9)) ls
      else ls.error (some .string) .xesc

/-- The bytes of a Unicode escape. The `int` of a value from 0x80000000 on is
negative, so it is below every limit and saved as one byte. -/
def uescapeBytes (c : Nat) : GCstr :=
  List.map UInt8.ofNat <|
    if c ≥ 0x80000000 then [c]
    else if c ≥ 0x4000000 then
      [0xFC ||| c >>> 30, 0x80 ||| (c >>> 24 &&& 0x3f), 0x80 ||| (c >>> 18 &&& 0x3f),
        0x80 ||| (c >>> 12 &&& 0x3f), 0x80 ||| (c >>> 6 &&& 0x3f), 0x80 ||| (c &&& 0x3f)]
    else if c ≥ 0x200000 then
      [0xF8 ||| c >>> 24, 0x80 ||| (c >>> 18 &&& 0x3f), 0x80 ||| (c >>> 12 &&& 0x3f),
        0x80 ||| (c >>> 6 &&& 0x3f), 0x80 ||| (c &&& 0x3f)]
    else if c ≥ 0x10000 then
      [0xF0 ||| c >>> 18, 0x80 ||| (c >>> 12 &&& 0x3f), 0x80 ||| (c >>> 6 &&& 0x3f),
        0x80 ||| (c &&& 0x3f)]
    else if c ≥ 0x0800 then
      [0xE0 ||| c >>> 12, 0x80 ||| (c >>> 6 &&& 0x3f), 0x80 ||| (c &&& 0x3f)]
    else if c ≥ 0x0080 then
      [0xC0 ||| c >>> 6, 0x80 ||| (c &&& 0x3f)]
    else
      [c]

/-- Save the bytes of an escape and leave its last character. -/
def escaped (ls : Lexer) (bytes : GCstr) : Lexer :=
  Lexer.next { ls with sb := ls.sb ++ bytes }

/-- The escape whose backslash was just skipped. -/
def escape (ls : Lexer) : Except LexError Lexer :=
  match ls.c with
  | none => .ok ls
  | some c =>
      if let some b := simpleEscape c then .ok (ls.escaped [b])
      else if c = ch 'x' then do
        let (value, ls) ← hexDigits 2 0 ls
        return ls.escaped [UInt8.ofNat value]
      else if c = ch 'u' then do
        let (value, ls) ← hexDigits 4 0 ls
        return ls.escaped (uescapeBytes value)
      else if c = ch 'U' then do
        let (value, ls) ← hexDigits 8 0 ls
        return ls.escaped (uescapeBytes value)
      else ls.error (some .string) .xesc

/-- The loop of `lex_string`. -/
def stringLoop : Nat → Lexer → Except LexError Lexer
  | 0, _ => .error .outOfFuel
  | fuel + 1, ls =>
      if ls.c = some (ch '"') then .ok ls
      else if ls.c = none then ls.error (some .eof) .xstr
      else if ls.c = some (ch '\\') then do
        let ls ← ls.next.escape
        stringLoop fuel ls
      else if ls.iseol then do
        let ls ← ls.newline
        stringLoop fuel (ls.save (ch '\n'))
      else stringLoop fuel ls.savenext

/-- `lex_string`: what was saved, without the two delimiters. -/
def string (fuel : Nat) (ls : Lexer) : Except LexError (Token × Lexer) := do
  let ls ← stringLoop fuel ls.savenext
  let ls := ls.savenext
  return (.string ls.sb.tail.dropLast, ls)

/-! ## Names -/

/-- The characters `lex_name` ends at. -/
def endsName (c : LexChar) : Bool :=
  c == some (ch '\n') || c == some (ch '\r') || c == some (ch ' ') || c == some 12 ||
    c == some (ch '\t') || c == some 11 || c == some (ch '(') || c == some (ch ')') ||
    c == some (ch ':')

/-- The loop of `lex_name`. It has no case for the end of input. -/
def nameLoop : Nat → Lexer → Except LexError Lexer
  | 0, _ => .error .outOfFuel
  | fuel + 1, ls =>
      if endsName ls.c then .ok ls
      else if ls.c = some (ch '\\') then nameLoop fuel ls.next.savenext
      else nameLoop fuel ls.savenext

/-- `lex_name`. -/
def name (fuel : Nat) (ls : Lexer) : Except LexError (Token × Lexer) := do
  let ls ← nameLoop fuel ls
  return (.name ls.sb, ls)

/-! ## Main lexical scanner -/

/-- The rest of a comment. -/
def comment : Nat → Lexer → Except LexError Lexer
  | 0, _ => .error .outOfFuel
  | fuel + 1, ls => if !ls.iseol && ls.c != none then comment fuel ls.next else .ok ls

def isBlank (c : LexChar) : Bool :=
  c == some (ch ' ') || c == some (ch '\t') || c == some 11 || c == some 12

/-- The characters a number starts with. -/
def startsNumber (c : LexChar) : Bool :=
  c == some (ch '-') || c == some (ch '+') ||
    c.any fun b => ch '0' ≤ b && b ≤ ch '9'

/-- The loop of `lj_lex_next`. -/
def nextLoop [StrScan] (steps : Nat) : Nat → Lexer → Except LexError (Token × Lexer)
  | 0, _ => .error .outOfFuel
  | fuel + 1, ls =>
      if ls.iseol then do
        let ls ← ls.newline
        nextLoop steps fuel ls
      else if isBlank ls.c then nextLoop steps fuel ls.next
      else if ls.c = some (ch ';') then do
        let ls ← comment steps ls.next
        nextLoop steps fuel ls
      else if ls.c = some (ch '(') then .ok (.lparen, ls.next)
      else if ls.c = some (ch ')') then .ok (.rparen, ls.next)
      else if ls.c = some (ch ':') then .ok (.colon, ls.next)
      else if ls.c = some (ch '"') then ls.string steps
      else if startsNumber ls.c then ls.number steps
      else if ls.c = none then .ok (.eof, ls)
      else ls.name steps

/-- `lj_lex_next`, every loop of which may take `fuel` steps. -/
def ljLexNext [StrScan] (fuel : Nat) (ls : Lexer) : Except LexError (Token × Lexer) := do
  let (token, ls) ← nextLoop fuel fuel { ls with lastline := ls.linenumber, sb := [] }
  return (token, { ls with tok := some token.kind })

/-! ## Setup -/

/-- Skip a UTF-8 BOM, if it is buffered: the lexer and whether there was one. -/
def skipBom (ls : Lexer) : Lexer × Bool :=
  match ls.input with
  | .char 0xef (0xbb :: 0xbf :: p) rdata => ({ ls with input := .char 0xef p rdata }.next, true)
  | _ => (ls, false)

/-- The loop over the `#!` header line: whether it ends in a line break. -/
def headerLoop : Nat → Lexer → Except LexError (Bool × Lexer)
  | 0, _ => .error .outOfFuel
  | fuel + 1, ls =>
      let ls := ls.next
      if ls.c = none then .ok (false, ls)
      else if ls.iseol then .ok (true, ls)
      else headerLoop fuel ls

def LUA_SIGNATURE : UInt8 := 0x1b

/-- `lj_lex_setup`: whether the input is a bytecode dump, and the lexer. -/
def ljLexSetup (fuel : Nat) (rdata : List Piece) : Except LexError (Bool × Lexer) := do
  let (ls, bom) := skipBom { input := .more rdata }
  if ls.c = some (ch '#') then
    let (ended, ls) ← headerLoop fuel ls
    if !ended then return (false, ls)
    let ls ← ls.newline
    if ls.c = some LUA_SIGNATURE then throw .bcbad
    return (false, ls)
  if ls.c = some LUA_SIGNATURE then
    if bom then throw .bcbad
    return (true, ls)
  return (false, ls)

end Lexer

end TvmJit
