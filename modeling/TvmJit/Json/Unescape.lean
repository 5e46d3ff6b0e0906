import TvmJit.Utf8
import TvmJit.Foundation.Digits
import TvmJit.Foundation.Peg

/-! The escapes of JSON strings, which the parsers and the translators read by the same code. -/

namespace TvmJit.Json

open Foundation Peg

/-- The values of the escapes of one character. -/
def special : List (UInt8 × UInt8) :=
   [('"'.toUInt8, '"'.toUInt8), ('\\'.toUInt8, '\\'.toUInt8), ('/'.toUInt8, '/'.toUInt8),
    ('b'.toUInt8, 8), ('f'.toUInt8, 12), ('n'.toUInt8, 10), ('r'.toUInt8, 13), ('t'.toUInt8, 9)]

/-- `S'"\\/bfnrt'`. -/
def specials : GCstr :=
   ['"'.toUInt8, '\\'.toUInt8, '/'.toUInt8, 'b'.toUInt8, 'f'.toUInt8, 'n'.toUInt8, 'r'.toUInt8, 't'.toUInt8]

def xdigit (c : UInt8) : Bool :=
  '0'.toUInt8 ≤ c && c ≤ '9'.toUInt8 || 'A'.toUInt8 ≤ c && c ≤ 'F'.toUInt8 || 'a'.toUInt8 ≤ c && c ≤ 'f'.toUInt8

/-- `tonumber(s, 16)` of hexadecimal digits. -/
def tonumber16 (s : GCstr) : Nat :=
  numeral 16 (s.map fun c => if c ≤ '9'.toUInt8 then c.toNat - 48 else (c ||| 0x20).toNat - 87)

def escape_xdigit : Pattern UInt8
  | b :: u :: c :: d :: e :: f :: _ =>
      if b = '\\'.toUInt8 ∧ u = 'u'.toUInt8 ∧ xdigit c ∧ xdigit d ∧ xdigit e ∧ xdigit f then some (6, [c, d, e, f])
      else none
  | _ => none

def gsub_escape_xdigit : GCstr → GCstr := gsub escape_xdigit fun s => wcharBytes (tonumber16 s)

def escape_special : Pattern UInt8
  | b :: c :: _ => if b = '\\'.toUInt8 ∧ c ∈ specials then some (2, [c]) else none
  | _ => none

def gsub_escape_special : GCstr → GCstr := gsub escape_special (·.map fun c => (special.lookup c).getD c)

def escape_illegal : Pattern UInt8
  | b :: c :: _ => if b = '\\'.toUInt8 ∧ ¬(c ∈ specials ∨ c = 'u'.toUInt8) then some (2, []) else none
  | _ => none

def find_escape_illegal : GCstr → Bool := find escape_illegal

def unescape (str : GCstr) : Except String GCstr :=
  if find_escape_illegal str then .error "illegal escape sequence"
  else .ok (gsub_escape_special (gsub_escape_xdigit str))

end TvmJit.Json
