import TvmJit.Foundation.Escapes
import TvmJit.Json.Unescape

/-! The escapes of double quoted strings of NQP, which are read by four substitutions one after another. -/

namespace TvmJit.Nqp

open Foundation Peg Escapes

/-- What `syntaxerror` is called with. -/
structure SyntaxError where
  err : String
  near : GCstr
  deriving DecidableEq

/-- The values of the escapes of one character. -/
def special : List (UInt8 × UInt8) :=
   [('\''.toUInt8, '\''.toUInt8), ('"'.toUInt8, '"'.toUInt8), ('\\'.toUInt8, '\\'.toUInt8), ('/'.toUInt8, '/'.toUInt8),
    ('a'.toUInt8, 7), ('b'.toUInt8, 8), ('e'.toUInt8, 0x1b), ('f'.toUInt8, 12), ('n'.toUInt8, 10), ('r'.toUInt8, 13),
    ('t'.toUInt8, 9)]

def digit (c : UInt8) : Bool := '0'.toUInt8 ≤ c && c ≤ '9'.toUInt8
def octal (c : UInt8) : Bool := '0'.toUInt8 ≤ c && c ≤ '7'.toUInt8

/-- `tonumber(s, base)` of digits. -/
def tonumber (s : GCstr) (base : Nat) : Nat :=
  numeral base (s.map fun c => if c ≤ '9'.toUInt8 then c.toNat - 48 else (c ||| 0x20).toNat - 87)

/-- A backslash, a letter and at least `least`, but not more than `most` digits, which are captured. -/
def escapeDigits (mark : Char) (isDigit : UInt8 → Bool) (least most : Nat) : Pattern UInt8
  | b :: m :: s =>
      if b = '\\'.toUInt8 ∧ m = mark.toUInt8 ∧ least ≤ (digits isDigit most s).length then
        some (2 + (digits isDigit most s).length, digits isDigit most s)
      else none
  | _ => none

def escape_special : Pattern UInt8
  | b :: c :: _ => if b = '\\'.toUInt8 ∧ (special.lookup c).isSome then some (2, [c]) else none
  | _ => none

def gsub_escape_special : GCstr → GCstr := gsub escape_special (·.map fun c => (special.lookup c).getD c)

def escape_xdigit : Pattern UInt8 := escapeDigits 'x' Json.xdigit 2 2

def gsub_escape_xdigit : GCstr → Except SyntaxError GCstr :=
  gsubE escape_xdigit fun s => .ok [UInt8.ofNat (tonumber s 16)]

def escape_octal : Pattern UInt8 := escapeDigits 'o' octal 1 3

def gsub_escape_octal : GCstr → Except SyntaxError GCstr :=
  gsubE escape_octal fun s =>
    let n := tonumber s 8
    if n ≥ 256 then .error ⟨"octal escape too large near ", s⟩ else .ok [UInt8.ofNat n]

def escape_decimal : Pattern UInt8 := escapeDigits 'c' digit 1 3

def gsub_escape_decimal : GCstr → Except SyntaxError GCstr :=
  gsubE escape_decimal fun s =>
    let n := tonumber s 10
    if n ≥ 256 then .error ⟨"decimal escape too large near ", s⟩ else .ok [UInt8.ofNat n]

def unescape (str : GCstr) : Except SyntaxError GCstr := do
  let str ← gsub_escape_decimal str
  let str ← gsub_escape_octal str
  let str ← gsub_escape_xdigit str
  return gsub_escape_special str

/-! ## Literals -/

inductive Numeric
  | decimal | octal | xdigit
  deriving DecidableEq

def kind : Numeric → EscapeKind UInt8 SyntaxError
  | .decimal => ⟨'c'.toUInt8, digit, 1, 3, fun s =>
      if tonumber s 10 ≥ 256 then .error ⟨"decimal escape too large near ", s⟩ else .ok [UInt8.ofNat (tonumber s 10)]⟩
  | .octal => ⟨'o'.toUInt8, octal, 1, 3, fun s =>
      if tonumber s 8 ≥ 256 then .error ⟨"octal escape too large near ", s⟩ else .ok [UInt8.ofNat (tonumber s 8)]⟩
  | .xdigit => ⟨'x'.toUInt8, Json.xdigit, 2, 2, fun s => .ok [UInt8.ofNat (tonumber s 16)]⟩

/-- A numeric escape has a value of one byte. -/
theorem length_value {i : Numeric} {ds v : GCstr} (value : (kind i).value ds = .ok v) : v.length = 1 := by
  cases i with
  | xdigit =>
      cases value
      rfl
  | decimal | octal =>
      rw [kind] at value
      dsimp only at value
      split at value
      · nomatch value
      · cases value
        rfl

theorem least_pos (i : Numeric) : 1 ≤ (kind i).least := by
  cases i <;> decide

/-- The escapes of the language. -/
def nqp : Escaping UInt8 Numeric SyntaxError where
  esc := '\\'.toUInt8
  special c := special.lookup c
  kind := kind
  special_esc := rfl
  special_mark i := by cases i <;> rfl
  mark_injective i j same := by cases i <;> cases j <;> first | rfl | exact absurd same (by decide)
  digit_esc i := by cases i <;> rfl
  length_value i ds v least value := by
    have positive := least_pos i
    rw [length_value value]
    omega
  length_more i ds more v v' least most some value value' := by
    have positive := List.length_pos_iff.mpr some
    rw [length_value value, length_value value']
    omega

/-- The body of a literal, as it is read once from left to right. -/
structure Body where
  pieces : List (Escapes.Token UInt8 Numeric)
  valid : ∀ p ∈ pieces, nqp.Valid p
  /-- A character that stands for itself is no backslash, no quote and no control character. -/
  plain : ∀ c, .lit c ∈ pieces → c ≠ '\\'.toUInt8 ∧ c ≠ '"'.toUInt8 ∧ 32 ≤ c
  /-- A numeric escape takes all digits it can have. -/
  greedy : ∀ front i ds v rest, pieces = front ++ .num i ds v :: rest →
    digits (kind i).digit (kind i).most (ds ++ nqp.text rest) = ds

/-- No substitution reads what another one has left for an escape. -/
def Apart (ps : List (Escapes.Token UInt8 Numeric)) : Prop :=
  nqp.AllClean [.decimal, .octal, .xdigit] ps ∧ nqp.Kept (decodeAll [.decimal, .octal, .xdigit] ps)

theorem escape_eq (i : Numeric) : nqp.escape i = match i with
    | .decimal => escape_decimal
    | .octal => escape_octal
    | .xdigit => escape_xdigit := by
  funext s
  match s with
  | [] | [_] | _ :: _ :: _ => cases i <;> rfl

theorem escapeSpecial_eq : nqp.escapeSpecial = escape_special := by
  funext s
  match s with
  | [] | [_] | _ :: _ :: _ => rfl

theorem unescape_eq (s : GCstr) : unescape s = (nqp.passes [.decimal, .octal, .xdigit] s).map nqp.specials := by
  have decimal : nqp.pass .decimal = gsub_escape_decimal := congrArg (gsubE · _) (escape_eq .decimal)
  have octal : nqp.pass .octal = gsub_escape_octal := congrArg (gsubE · _) (escape_eq .octal)
  have xdigit : nqp.pass .xdigit = gsub_escape_xdigit := congrArg (gsubE · _) (escape_eq .xdigit)
  have specials : nqp.specials = gsub_escape_special := congrArg (gsub · _) escapeSpecial_eq
  have passes : nqp.passes [.decimal, .octal, .xdigit] s =
      (nqp.pass .decimal s).bind fun s => (nqp.pass .octal s).bind fun s => (nqp.pass .xdigit s).bind .ok := rfl
  rw [passes, decimal, octal, xdigit, specials, unescape]
  cases gsub_escape_decimal s with
  | error e => rfl
  | ok s =>
      simp only [bind, Except.bind]
      cases gsub_escape_octal s with
      | error e => rfl
      | ok s =>
          dsimp only
          cases gsub_escape_xdigit s <;> rfl

/-- An escaped backslash and the text `x41`. -/
def escapedBackslash : Body where
  pieces := [.pair '\\'.toUInt8, .lit 'x'.toUInt8, .lit '4'.toUInt8, .lit '1'.toUInt8]
  valid := by simp [Escaping.Valid, nqp, special]
  plain c member := by
    have isChar : c = 'x'.toUInt8 ∨ c = '4'.toUInt8 ∨ c = '1'.toUInt8 := by simpa using member
    rcases isChar with same | same | same <;> rw [same] <;> decide
  greedy front i ds v rest parts := by
    have member : Escapes.Token.num i ds v ∈ front ++ .num i ds v :: rest := List.mem_append_right _ List.mem_cons_self
    rw [← parts] at member
    simp at member

end TvmJit.Nqp
