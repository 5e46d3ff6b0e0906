import TvmJit.Token

/-! Format specifications of integers, and the words that `lj_strfmt_parse` makes of them. -/

namespace TvmJit.Fmt

/-- Format indicator. -/
abbrev SFormat := BitVec 32

abbrev MSize := BitVec 32

/-! Format types that are integers, and their subtypes. -/
def STRFMT_INT : SFormat := 3
def STRFMT_UINT : SFormat := 4
def STRFMT_T_HEX : SFormat := 0x0010
def STRFMT_T_OCT : SFormat := 0x0020

/-! Format flags. -/
def STRFMT_F_LEFT : SFormat := 0x0100
def STRFMT_F_PLUS : SFormat := 0x0200
def STRFMT_F_ZERO : SFormat := 0x0400
def STRFMT_F_SPACE : SFormat := 0x0800
def STRFMT_F_ALT : SFormat := 0x1000
def STRFMT_F_UPPER : SFormat := 0x2000

/-! Format indicator fields. -/
def STRFMT_SH_WIDTH : Nat := 16
def STRFMT_SH_PREC : Nat := 24

def STRFMT_TYPE (sf : SFormat) : SFormat := sf &&& 15
def STRFMT_WIDTH (sf : SFormat) : MSize := sf >>> STRFMT_SH_WIDTH &&& 255
def STRFMT_PREC (sf : SFormat) : MSize := (sf >>> STRFMT_SH_PREC &&& 255) - 1

/-- `strfmt_map`, which is 0 where there is no conversion. -/
def strfmt_map (c : UInt8) : SFormat :=
  match Char.ofNat c.toNat with
  | 'd' | 'i' => STRFMT_INT
  | 'u' => STRFMT_UINT
  | 'x' | 'X' => STRFMT_UINT ||| STRFMT_T_HEX
  | 'o' => STRFMT_UINT ||| STRFMT_T_OCT
  | 'A' | 'a' => 5
  | 'E' | 'e' => 5 ||| 0x10
  | 'F' | 'f' => 5 ||| 0x20
  | 'G' | 'g' => 5 ||| 0x30
  | 's' => 6
  | 'q' => 6 ||| 0x10
  | 'c' => 7
  | 'p' => 8
  | _ => 0

/-! ## The parser -/

/-- The loop for the flags. -/
def parseFlags (sf : SFormat) : GCstr → SFormat × GCstr
  | [] => (sf, [])
  | c :: p =>
      if c = '-'.toUInt8 then parseFlags (sf ||| STRFMT_F_LEFT) p
      else if c = '+'.toUInt8 then parseFlags (sf ||| STRFMT_F_PLUS) p
      else if c = '0'.toUInt8 then parseFlags (sf ||| STRFMT_F_ZERO) p
      else if c = ' '.toUInt8 then parseFlags (sf ||| STRFMT_F_SPACE) p
      else if c = '#'.toUInt8 then parseFlags (sf ||| STRFMT_F_ALT) p
      else (sf, c :: p)

def isDigit (c : UInt8) : Bool := c - 48 < 10

/-- Up to two digits, or 0. -/
def parseTwo : GCstr → BitVec 32 × GCstr
  | c :: c' :: p =>
      if isDigit c then
        let n := (c - 48).toBitVec.setWidth 32
        if isDigit c' then ((c' - 48).toBitVec.setWidth 32 + n * 10, p) else (n, c' :: p)
      else (0, c :: c' :: p)
  | [c] => if isDigit c then ((c - 48).toBitVec.setWidth 32, []) else (0, [c])
  | [] => (0, [])

/-- What `lj_strfmt_parse` does behind a `%`: the format, or nothing for an error, and what is
behind the specification. -/
def lj_strfmt_parse (p : GCstr) : Option (SFormat × GCstr) :=
  let (sf, p) := parseFlags 0 p
  let (width, p) := parseTwo p
  let sf := sf ||| width <<< STRFMT_SH_WIDTH
  let (sf, p) :=
    if p.head? = some '.'.toUInt8 then
      let (prec, p) := parseTwo p.tail
      (sf ||| (prec + 1) <<< STRFMT_SH_PREC, p)
    else (sf, p)
  match p with
  | [] => none
  | c :: p =>
      let sx := strfmt_map c
      if sx = 0 then none
      else some (sf ||| sx ||| (if (c - 'A'.toUInt8) &&& 0x20 ≠ 0 then 0 else STRFMT_F_UPPER), p)

/-! ## Specifications -/

inductive Flag
  | left | plus | zero | space | alt
  deriving DecidableEq

def Flag.char : Flag → UInt8
  | left => '-'.toUInt8
  | plus => '+'.toUInt8
  | zero => '0'.toUInt8
  | space => ' '.toUInt8
  | alt => '#'.toUInt8

/-- Conversions of integers. -/
inductive Conversion
  | d | i | u | x | X | o
  deriving DecidableEq

def Conversion.char : Conversion → UInt8
  | d => 'd'.toUInt8
  | i => 'i'.toUInt8
  | u => 'u'.toUInt8
  | x => 'x'.toUInt8
  | X => 'X'.toUInt8
  | o => 'o'.toUInt8

instance neZeroHundred : NeZero 100 := ⟨by decide⟩

/-- A conversion specification: flags in any order, a width of up to two digits, which has no
leading 0, a precision of up to two digits, and the conversion. -/
structure FormatSpec where
  flags : List Flag
  width : Fin 100
  prec : Option (Fin 100)
  conversion : Conversion

/-- A number below 100 in decimal. -/
def decimal (n : Nat) : GCstr :=
  if n < 10 then [.ofNat (48 + n)] else [.ofNat (48 + n / 10), .ofNat (48 + n % 10)]

/-- The specification behind its `%`. -/
def FormatSpec.text (f : FormatSpec) : GCstr :=
  f.flags.map Flag.char ++ ((if f.width = 0 then [] else decimal f.width) ++
    ((f.prec.elim [] fun prec => '.'.toUInt8 :: decimal prec) ++ [f.conversion.char]))

/-! ## What the parser makes of a specification -/

def Flag.bit : Flag → SFormat
  | left => STRFMT_F_LEFT
  | plus => STRFMT_F_PLUS
  | zero => STRFMT_F_ZERO
  | space => STRFMT_F_SPACE
  | alt => STRFMT_F_ALT

/-- The bits of a conversion. -/
def Conversion.bits : Conversion → SFormat
  | d | i => STRFMT_INT
  | u => STRFMT_UINT
  | x => STRFMT_UINT ||| STRFMT_T_HEX
  | X => STRFMT_UINT ||| STRFMT_T_HEX ||| STRFMT_F_UPPER
  | o => STRFMT_UINT ||| STRFMT_T_OCT

/-- The bits of flags. -/
def flagBits (flags : List Flag) : SFormat := flags.foldr (fun flag sf => flag.bit ||| sf) 0

namespace FormatSpec

variable (f : FormatSpec)

/-- The format of the specification. -/
def sf : SFormat :=
  flagBits f.flags ||| BitVec.ofNat 32 f.width <<< STRFMT_SH_WIDTH |||
    (f.prec.elim 0 fun prec => (BitVec.ofNat 32 prec + 1) <<< STRFMT_SH_PREC) ||| f.conversion.bits

end FormatSpec

/-- No flag is behind the flags. -/
def NoFlag (p : GCstr) : Prop := ∀ c ∈ p.head?, ∀ flag : Flag, c ≠ flag.char

theorem parseFlags_flags (flags : List Flag) (sf : SFormat) {p : GCstr} (behind : NoFlag p) :
    parseFlags sf (flags.map Flag.char ++ p) = (sf ||| flagBits flags, p) := by
  induction flags generalizing sf with
  | nil =>
      rw [flagBits, List.foldr_nil, List.map_nil, List.nil_append, show sf ||| 0 = sf from BitVec.or_zero]
      cases p with
      | nil => rfl
      | cons c p =>
          have left : c ≠ '-'.toUInt8 := behind c rfl .left
          have plus : c ≠ '+'.toUInt8 := behind c rfl .plus
          have zero : c ≠ '0'.toUInt8 := behind c rfl .zero
          have space : c ≠ ' '.toUInt8 := behind c rfl .space
          have alt : c ≠ '#'.toUInt8 := behind c rfl .alt
          rw [parseFlags, if_neg left, if_neg plus, if_neg zero, if_neg space, if_neg alt]
  | cons flag flags induction =>
      have step : parseFlags sf (flag.char :: (flags.map Flag.char ++ p)) =
          parseFlags (sf ||| flag.bit) (flags.map Flag.char ++ p) := by
        cases flag <;> rfl
      rw [List.map_cons, List.cons_append, step, induction, BitVec.or_assoc]
      rfl

/-- No digit is behind the number. -/
def NoDigit (p : GCstr) : Prop := ∀ c ∈ p.head?, isDigit c = false

theorem digit_value : ∀ d < 10, isDigit (.ofNat (48 + d)) = true ∧
    (UInt8.ofNat (48 + d) - 48).toBitVec.setWidth 32 = BitVec.ofNat 32 d := by
  decide

theorem parseTwo_decimal (n : Fin 100) {p : GCstr} (behind : NoDigit p) :
    parseTwo (decimal n ++ p) = (.ofNat 32 n, p) := by
  unfold decimal
  split
  · next small =>
      have ⟨isDigit, value⟩ := digit_value n small
      cases p with
      | nil => rw [List.append_nil, parseTwo, if_pos isDigit, value]
      | cons c p =>
          rw [List.singleton_append, parseTwo, if_pos isDigit, if_neg (Bool.eq_false_iff.mp (behind c rfl)), value]
  · next large =>
      have ⟨isDigit, value⟩ := digit_value (n / 10) (by omega)
      have ⟨isDigit', value'⟩ := digit_value (n % 10) (by omega)
      have whole : BitVec.ofNat 32 (n % 10) + BitVec.ofNat 32 (n / 10) * 10 = BitVec.ofNat 32 n := by
        apply BitVec.eq_of_toNat_eq
        have ten : (10 : BitVec 32).toNat = 10 := rfl
        rw [BitVec.toNat_add, BitVec.toNat_mul, BitVec.toNat_ofNat, BitVec.toNat_ofNat, BitVec.toNat_ofNat, ten]
        omega
      rw [List.cons_append, List.singleton_append, parseTwo, if_pos isDigit, if_pos isDigit', value, value', whole]

theorem parseTwo_none {p : GCstr} (behind : NoDigit p) : parseTwo p = (0, p) := by
  match p with
  | [] => rfl
  | [c] => rw [parseTwo, if_neg (Bool.eq_false_iff.mp (behind c rfl))]
  | c :: c' :: p => rw [parseTwo, if_neg (Bool.eq_false_iff.mp (behind c rfl))]

theorem conversion_char : ∀ (conversion : Conversion), (∀ flag : Flag, conversion.char ≠ flag.char) ∧
    isDigit conversion.char = false ∧ conversion.char ≠ '.'.toUInt8 ∧ strfmt_map conversion.char ≠ 0 ∧
    (strfmt_map conversion.char ||| if (conversion.char - 'A'.toUInt8) &&& 0x20 ≠ 0 then 0 else STRFMT_F_UPPER) =
      conversion.bits := by
  intro conversion
  refine ⟨fun flag => ?_, ?_⟩
  · cases conversion <;> cases flag <;> decide
  · cases conversion <;> decide

/-- A width starts with no 0 and no other flag. -/
theorem decimal_noFlag (n : Fin 100) (notZero : n ≠ 0) (flag : Flag) : ∀ c ∈ (decimal n).head?, c ≠ flag.char := by
  have each : ∀ n : Fin 100, n ≠ 0 → (decimal n).head? ≠ some flag.char := by
    cases flag <;> decide
  intro c head same
  exact each n notZero (head.trans (congrArg _ same))

section

variable (prec : Option (Fin 100)) (conversion : Conversion) (rest : GCstr)

/-- The precision and the conversion. -/
def precText : GCstr :=
  (prec.elim [] fun prec => '.'.toUInt8 :: decimal prec) ++ conversion.char :: rest

theorem head_precText : (precText prec conversion rest).head? = some (if prec.isSome then '.'.toUInt8 else conversion.char) := by
  cases prec <;> rfl

theorem precText_noDigit : NoDigit (precText prec conversion rest) := by
  intro c head
  rw [head_precText] at head
  cases head
  split
  · decide
  · exact (conversion_char conversion).2.1

theorem precText_noFlag : NoFlag (precText prec conversion rest) := by
  intro c head flag
  rw [head_precText] at head
  cases head
  split
  · cases flag <;> decide
  · exact (conversion_char conversion).1 flag

end

theorem parseTwo_width (width : Fin 100) {p : GCstr} (behind : NoDigit p) :
    parseTwo ((if width = 0 then [] else decimal width) ++ p) = (.ofNat 32 width, p) := by
  split
  · next zero =>
      rw [zero]
      exact parseTwo_none behind
  · exact parseTwo_decimal width behind

theorem width_noFlag (width : Fin 100) {p : GCstr} (behind : NoFlag p) :
    NoFlag ((if width = 0 then [] else decimal width) ++ p) := by
  split
  · exact behind
  · next some =>
      intro c head flag
      have first : (decimal width ++ p).head? = (decimal width).head? := by
        unfold decimal
        split <;> rfl
      rw [first] at head
      exact decimal_noFlag width some flag c head

theorem parse_text (f : FormatSpec) (rest : GCstr) : lj_strfmt_parse (f.text ++ rest) = some (f.sf, rest) := by
  have parts : f.text ++ rest = f.flags.map Flag.char ++ ((if f.width = 0 then [] else decimal f.width) ++
      precText f.prec f.conversion rest) := by
    simp only [FormatSpec.text, precText, List.append_assoc, List.singleton_append]
  have ⟨_, noDigit, noPoint, isConversion, bits⟩ := conversion_char f.conversion
  have point : (precText f.prec f.conversion rest).head? = some '.'.toUInt8 ↔ f.prec.isSome := by
    rw [head_precText]
    cases f.prec with
    | none => exact iff_of_false (fun same => noPoint (Option.some.inj same)) nofun
    | some prec => exact iff_of_true rfl rfl
  rw [parts, lj_strfmt_parse, parseFlags_flags _ _ (width_noFlag f.width (precText_noFlag f.prec f.conversion rest))]
  dsimp only
  rw [parseTwo_width f.width (precText_noDigit f.prec f.conversion rest)]
  dsimp only
  have last (sf : SFormat) :
      (if strfmt_map f.conversion.char = 0 then none
        else some (sf ||| strfmt_map f.conversion.char |||
          (if (f.conversion.char - 'A'.toUInt8) &&& 0x20 ≠ 0 then 0 else STRFMT_F_UPPER), rest)) =
        some (sf ||| f.conversion.bits, rest) := by
    rw [if_neg isConversion, BitVec.or_assoc, bits]
  cases isPrec : f.prec with
  | none =>
      rw [isPrec] at point
      rw [if_neg fun isPoint => nomatch point.mp isPoint]
      change (if strfmt_map f.conversion.char = 0 then none else _) = _
      have empty : (flagBits f.flags ||| BitVec.ofNat 32 f.width <<< STRFMT_SH_WIDTH ||| 0) =
          flagBits f.flags ||| BitVec.ofNat 32 f.width <<< STRFMT_SH_WIDTH := BitVec.or_zero
      have start : 0 ||| flagBits f.flags = flagBits f.flags := BitVec.zero_or
      rw [last, FormatSpec.sf, isPrec, Option.elim_none, empty, start]
  | some prec =>
      rw [isPrec] at point
      rw [if_pos (point.mpr rfl)]
      have behind : NoDigit (f.conversion.char :: rest) := fun c head => by
        cases head
        exact noDigit
      have tail : (precText (some prec) f.conversion rest).tail = decimal prec ++ f.conversion.char :: rest := rfl
      rw [tail, parseTwo_decimal prec behind]
      dsimp only
      have start : 0 ||| flagBits f.flags = flagBits f.flags := BitVec.zero_or
      rw [last, FormatSpec.sf, isPrec, Option.elim_some, start]

end TvmJit.Fmt
