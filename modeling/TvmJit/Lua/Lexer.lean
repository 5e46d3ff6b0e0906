import TvmJit.Lex.Reader

/-! The lexer of `lunokhod.lua`: the methods of `L` up to `L:_llex`. Converting a numeral is
the parameter `Tonumber`. -/

namespace TvmJit

inductive LuaLexError
  /-- `L:_lexerror`: the message, the line and the text it names. -/
  | lex (msg : String) (line : Int) (near : GCstr)
  /-- A failed `assert`. -/
  | assertion
  /-- The bound on the steps of a loop is used up. -/
  | outOfFuel
  deriving DecidableEq, Repr

/-- What `L:_llex` returns, with what it has stored to `tok.seminfo`. -/
inductive Lexeme
  | name (seminfo : GCstr)
  | string (seminfo : GCstr)
  | number (seminfo : GCstr)
  | eof
  /-- An operator, a reserved word or a single character. -/
  | plain (token : GCstr)
  deriving DecidableEq, Repr

/-- The lexer's fields of `L`. `z` is what `self.z` has from `self.pos` on. -/
structure L where
  z : GCstr
  linenumber : Int := 1
  buff : List GCstr := []
  deriving DecidableEq, Repr

namespace L

def digit : GCstr := .ofString "0123456789"

theorem digit_bytes : digit = [48, 49, 50, 51, 52, 53, 54, 55, 56, 57] := by decide +kernel

theorem find_digit (b : UInt8) : find digit (some b) = ljCharIsdigit (some b) := by
  rw [digit_bytes, ljCharIsdigit_byte, Bool.eq_iff_iff]
  simp only [find, Option.any_some, List.contains_eq_mem, List.mem_cons, List.not_mem_nil, or_false,
    decide_eq_true_eq, Bool.and_eq_true, ← UInt8.toNat_inj, UInt8.reduceToNat]
  omega

def alpha : GCstr := .ofString "ABCDEFGHIJKLMNOPQRSTUVWXYZabcdefghijklmnopqrstuvwxyz_"
def alnum : GCstr := alpha ++ digit
def space : GCstr := [ch ' ', 12, ch '\t', 11, ch '\n', ch '\r']

def tokens : List GCstr :=
  ["and", "break", "do", "else", "elseif", "end", "false", "for", "function", "goto", "if",
    "in", "local", "nil", "not", "or", "repeat", "return", "then", "true", "until",
    "while"].map .ofString

/-- `self.current`, none for `<eof>`. -/
def current (l : L) : LexChar := l.z.head?

/-- `L:_resetbuffer`. -/
def resetbuffer (l : L) : L := { l with buff := [] }

/-- `L:_buffremove`. -/
def buffremove (l : L) (n : Nat) : L := { l with buff := l.buff.take (l.buff.length - n) }

/-- `L:_next`. -/
def next_ (l : L) : L := { l with z := l.z.tail }

/-- `L:_save`. -/
def save (l : L) (c : GCstr) : L := { l with buff := l.buff ++ [c] }

/-- `L:_save_and_next`. The end of input is saved as its name. -/
def saveAndNext (l : L) : L :=
  (l.save (l.current.elim (.ofString "<eof>") fun b => [b])).next_

/-- `tconcat(self.buff)`. -/
def text (l : L) : GCstr := l.buff.flatten

/-- `L:_lexerror` near what was saved. -/
def lexerror {α : Type} (l : L) (msg : String) : Except LuaLexError α :=
  .error (.lex msg l.linenumber l.text)

/-- `L:_lexerror` near the end of input. -/
def eoferror {α : Type} (l : L) (msg : String) : Except LuaLexError α :=
  .error (.lex msg l.linenumber (.ofString "<eof>"))

/-- `L:_inclinenumber`. -/
def inclinenumber (l : L) : Except LuaLexError L :=
  let old := l.current
  if find newline l.current then
    let l := l.next_
    let l := if find newline l.current && l.current != old then l.next_ else l
    .ok { l with linenumber := l.linenumber + 1 }
  else .error .assertion

/-- `L:_check_next1`. -/
def checkNext1 (l : L) (c : UInt8) : Bool × L :=
  if l.current = some c then (true, l.next_) else (false, l)

/-- `L:_check_next2`. -/
def checkNext2 (l : L) (set : GCstr) : Bool × L :=
  if find set l.current then (true, l.saveAndNext) else (false, l)

/-! ## Numerals -/

/-- The loop of `L:_read_numeral`. -/
def numeralLoop (expo : GCstr) : Nat → L → Except LuaLexError L
  | 0, _ => .error .outOfFuel
  | fuel + 1, l =>
      let (isExpo, l') := l.checkNext2 expo
      if isExpo then numeralLoop expo fuel (l'.checkNext2 sign).2
      else if find xdigit l.current || l.current == some (ch '.') then
        numeralLoop expo fuel l.saveAndNext
      else .ok l

/-- `L:_read_numeral`. -/
def readNumeral [Tonumber] (fuel : Nat) (l : L) : Except LuaLexError (Lexeme × L) := do
  let first := l.current
  if !find digit l.current then throw .assertion
  let l := l.saveAndNext
  let (hex, l) := if first = some (ch '0') then l.checkNext2 (.ofString "Xx") else (false, l)
  let l ← numeralLoop (if hex then .ofString "Pp" else .ofString "Ee") fuel l
  match Tonumber.tonumber l.text with
  | some _ => return (.number l.text, l)
  | none => l.lexerror "malformed number"

/-! ## Long strings -/

/-- The loop of `L:_skip_sep`: how many equals signs there are. -/
def sepLoop : Nat → L → Except LuaLexError (Nat × L)
  | 0, _ => .error .outOfFuel
  | fuel + 1, l =>
      if l.current = some (ch '=') then do
        let (count, l) ← sepLoop fuel l.saveAndNext
        return (count + 1, l)
      else .ok (0, l)

/-- `L:_skip_sep`. -/
def skipSep (fuel : Nat) (l : L) : Except LuaLexError (Int × L) := do
  let s := l.current
  if s ≠ some (ch '[') ∧ s ≠ some (ch ']') then throw .assertion
  let (count, l) ← sepLoop fuel l.saveAndNext
  return (if l.current = s then (count : Int) else -count - 1, l)

/-- The loop of `L:_read_long_string`, which was called in a line; a comment has no `tok`. -/
def longStringLoop (steps : Nat) (tok : Bool) (sep line : Int) : Nat → L → Except LuaLexError L
  | 0, _ => .error .outOfFuel
  | fuel + 1, l =>
      if l.current = none then
        let what := if tok then "string" else "comment"
        l.eoferror s!"unfinished long {what} (starting at line {line})"
      else if l.current = some (ch ']') then do
        let (sep', l) ← l.skipSep steps
        if sep' = sep then return l.saveAndNext else longStringLoop steps tok sep line fuel l
      else if find newline l.current then do
        let l ← (l.save [ch '\n']).inclinenumber
        longStringLoop steps tok sep line fuel (if tok then l else l.resetbuffer)
      else longStringLoop steps tok sep line fuel (if tok then l.saveAndNext else l.next_)

/-- `L:_read_long_string`. -/
def readLongString (fuel : Nat) (tok : Bool) (sep : Int) (l : L) : Except LuaLexError L := do
  let line := l.linenumber
  let l := l.saveAndNext
  let l ← if find newline l.current then l.inclinenumber else .ok l
  longStringLoop fuel tok sep line fuel l

/-! ## Strings -/

/-- `L:_esccheck`. -/
def esccheck (l : L) (cond : Bool) (msg : String) : Except LuaLexError Unit :=
  if cond then .ok ()
  else if l.current ≠ none then l.saveAndNext.lexerror msg
  else l.lexerror msg

/-- `L:_gethexa`. -/
def gethexa (l : L) : Except LuaLexError (Nat × L) := do
  let l := l.saveAndNext
  l.esccheck (find xdigit l.current) "hexadecimal digit expected"
  return (hexValue l.current, l)
where
  hexValue (c : LexChar) : Nat := c.elim 0 P.hexValue

/-- `L:_readhexaesc`. -/
def readhexaesc (l : L) : Except LuaLexError (GCstr × L) := do
  let (r, l) ← l.gethexa
  let (d, l) ← l.gethexa
  return ([UInt8.ofNat (16 * r + d)], l.buffremove 2)

/-- The loop of `L:_readutf8esc`. -/
def utf8escLoop : Nat → Nat → Nat → L → Except LuaLexError (Nat × Nat × L)
  | 0, _, _, _ => .error .outOfFuel
  | fuel + 1, i, r, l =>
      if find xdigit l.current then do
        let r := 16 * r + gethexa.hexValue l.current
        l.esccheck (r ≤ 0x10FFFF) "UTF-8 value too large"
        utf8escLoop fuel (i + 1) r l.saveAndNext
      else .ok (i, r, l)

/-- `L:_readutf8esc`. -/
def readutf8esc (fuel : Nat) (l : L) : Except LuaLexError (Nat × L) := do
  let l := l.saveAndNext
  l.esccheck (l.current == some (ch '\x7b')) "missing '\x7b'"
  let (r, l) ← l.gethexa
  let l := l.saveAndNext
  let (i, r, l) ← utf8escLoop fuel 4 r l
  l.esccheck (l.current == some (ch '\x7d')) "missing '\x7d'"
  return (r, l.next_.buffremove i)

/-- `L:_utf8esc`. -/
def utf8esc (fuel : Nat) (l : L) : Except LuaLexError L := do
  let (n, l) ← l.readutf8esc fuel
  let bytes : List Nat :=
    if n < 0x80 then [n]
    else if n < 0x800 then [0xC0 + n >>> 6, 0x80 + (n &&& 0x3F)]
    else if n < 0x10000 then [0xE0 + n >>> 12, 0x80 + (n >>> 6 &&& 0x3F), 0x80 + (n &&& 0x3F)]
    else [0xF0 + n >>> 18, 0x80 + (n >>> 12 &&& 0x3F), 0x80 + (n >>> 6 &&& 0x3F), 0x80 + (n &&& 0x3F)]
  return bytes.foldl (fun l b => l.save [UInt8.ofNat b]) l

/-- The loop of `L:_readdecesc`, with at most so many digits to go. -/
def decescLoop : Nat → Nat → Nat → L → Nat × Nat × L
  | 0, i, r, l => (i, r, l)
  | digits + 1, i, r, l =>
      match l.current with
      | some c =>
          if find digit (some c) then
            decescLoop digits (i + 1) (10 * r + (c.toNat - 48)) l.saveAndNext
          else (i, r, l)
      | none => (i, r, l)

/-- `L:_readdecesc`. -/
def readdecesc (l : L) : Except LuaLexError (GCstr × L) := do
  let (i, r, l) := decescLoop 3 0 0 l
  l.esccheck (r ≤ 255) "decimal escape too large"
  return ([UInt8.ofNat r], l.buffremove i)

/-- The characters of an escape with a single letter. -/
def simpleEscape (c : UInt8) : Option UInt8 :=
  if c = ch 'a' then some 7
  else if c = ch 'b' then some (ch 'b')
  else if c = ch 'f' then some 12
  else if c = ch 'n' then some (ch '\n')
  else if c = ch 'r' then some (ch '\r')
  else if c = ch 't' then some (ch '\t')
  else if c = ch 'v' then some 11
  else if c = ch '\\' ∨ c = ch '"' ∨ c = ch '\'' then some c
  else none

/-- The label `only_save`. -/
def onlySave (l : L) (c : GCstr) : L := (l.buffremove 1).save c

/-- The label `read_save`. -/
def readSave (l : L) (c : GCstr) : L := l.next_.onlySave c

/-- The loop that skips white space after `\z`. -/
def skipSpace : Nat → L → Except LuaLexError L
  | 0, _ => .error .outOfFuel
  | fuel + 1, l =>
      if find space l.current then do
        let l ← if find newline l.current then l.inclinenumber else .ok l.next_
        skipSpace fuel l
      else .ok l

/-- The escape whose backslash was just saved. -/
def escape (fuel : Nat) (l : L) : Except LuaLexError L :=
  match l.current with
  | none => .ok l  -- Will raise an error next loop.
  | some c =>
      if let some b := simpleEscape c then .ok (l.readSave [b])
      else if c = ch 'x' then do
        let (c, l) ← l.readhexaesc
        return l.readSave c
      else if c = ch 'u' then l.utf8esc fuel
      else if c = ch '\n' ∨ c = ch '\r' then do
        let l ← l.inclinenumber
        return l.onlySave [ch '\n']
      else if c = ch 'z' then skipSpace fuel (l.buffremove 1).next_
      else do
        l.esccheck (find digit (some c)) "invalid escape sequence"
        let (c, l) ← l.readdecesc
        return l.onlySave c

/-- The loop of `L:_read_string`. -/
def stringLoop (steps : Nat) (del : UInt8) : Nat → L → Except LuaLexError L
  | 0, _ => .error .outOfFuel
  | fuel + 1, l =>
      if l.current = some del then .ok l
      else if l.current = none then l.eoferror "unfinished string"
      else if find newline l.current then l.lexerror "unfinished string"
      else if l.current = some (ch '\\') then do
        let l ← l.saveAndNext.escape steps
        stringLoop steps del fuel l
      else stringLoop steps del fuel l.saveAndNext

/-- `L:_read_string`: what was saved, without the two delimiters. -/
def readString (fuel : Nat) (del : UInt8) (l : L) : Except LuaLexError (Lexeme × L) := do
  let l ← stringLoop fuel del fuel l.saveAndNext
  let l := l.saveAndNext
  return (.string l.text.tail.dropLast, l)

/-! ## Tokens -/

/-- The rest of a short comment. -/
def shortComment : Nat → L → Except LuaLexError L
  | 0, _ => .error .outOfFuel
  | fuel + 1, l =>
      if !find newline l.current && l.current != none then shortComment fuel l.next_ else .ok l

/-- What follows the two hyphens of a comment. -/
def comment (fuel : Nat) (l : L) : Except LuaLexError L :=
  if l.current = some (ch '[') then do
    let (sep, l) ← l.skipSep fuel
    let l := l.resetbuffer
    if sep ≥ 0 then do
      let l ← readLongString fuel false sep l
      return l.resetbuffer
    else return l
  else shortComment fuel l

/-- The rest of a name. -/
def nameLoop : Nat → L → Except LuaLexError L
  | 0, _ => .error .outOfFuel
  | fuel + 1, l => if find alnum l.current then nameLoop fuel l.saveAndNext else .ok l

/-- A name or a reserved word. -/
def readName (fuel : Nat) (l : L) : Except LuaLexError (Lexeme × L) := do
  let l ← nameLoop fuel l.saveAndNext
  return (if l.text ∈ tokens then .plain l.text else .name l.text, l)

/-- An operator of one character, or of two with one of the second characters. -/
def operator (l : L) (first : UInt8) (seconds : List UInt8) : Lexeme × L :=
  match seconds.find? fun c => l.next_.current == some c with
  | some c => (.plain [first, c], l.next_.next_)
  | none => (.plain [first], l.next_)

/-- What starts with a point. -/
def readDot [Tonumber] (fuel : Nat) (l : L) : Except LuaLexError (Lexeme × L) :=
  let (second, l) := l.saveAndNext.checkNext1 (ch '.')
  if second then
    let (third, l) := l.checkNext1 (ch '.')
    .ok (.plain (if third then .ofString "..." else .ofString ".."), l)
  else if !find digit l.current then .ok (.plain [ch '.'], l)
  else l.readNumeral fuel

/-- What starts with a square bracket. -/
def readBracket (fuel : Nat) (l : L) : Except LuaLexError (Lexeme × L) := do
  let (sep, l) ← l.skipSep fuel
  if sep ≥ 0 then do
    let l ← readLongString fuel true sep l
    let n := 2 + sep.toNat
    return (.string ((l.text.drop n).take (l.text.length - 2 * n)), l)
  else if sep ≠ -1 then l.lexerror "invalid long string delimiter"
  else return (.plain [ch '['], l)

/-- The loop of `L:_llex`. -/
def llexLoop [Tonumber] (steps : Nat) : Nat → L → Except LuaLexError (Lexeme × L)
  | 0, _ => .error .outOfFuel
  | fuel + 1, l =>
      match l.current with
      | none => .ok (.eof, l)
      | some c =>
          if c = ch '\n' ∨ c = ch '\r' then do
            let l ← l.inclinenumber
            llexLoop steps fuel l
          else if c = ch ' ' ∨ c = 12 ∨ c = ch '\t' ∨ c = 11 then llexLoop steps fuel l.next_
          else if c = ch '-' then
            if l.next_.current ≠ some (ch '-') then .ok (.plain [ch '-'], l.next_)
            else do
              let l ← l.next_.next_.comment steps
              llexLoop steps fuel l
          else if c = ch '[' then l.readBracket steps
          else if c = ch '=' then .ok (l.operator c [ch '='])
          else if c = ch '<' then .ok (l.operator c [ch '=', ch '<'])
          else if c = ch '>' then .ok (l.operator c [ch '=', ch '>'])
          else if c = ch '/' then .ok (l.operator c [ch '/'])
          else if c = ch '~' then .ok (l.operator c [ch '='])
          else if c = ch ':' then .ok (l.operator c [ch ':'])
          else if c = ch '"' ∨ c = ch '\'' then l.readString steps c
          else if c = ch '.' then l.readDot steps
          else if find digit (some c) then l.readNumeral steps
          else if find alpha (some c) then l.readName steps
          else .ok (.plain [c], l.next_)

/-- `L:_llex`. Every round of its loops takes a character or is the last one. -/
def llex [Tonumber] (l : L) : Except LuaLexError (Lexeme × L) :=
  llexLoop (l.z.length + 1) (l.z.length + 1) l.resetbuffer

end L

end TvmJit
