import TvmJit.Scan.Decimal

/-! Integer literals are scanned exactly, or refused. -/

namespace TvmJit.Scan

open Foundation

/-- What is written in front of the digits, in upper case or not. -/
inductive Radix
  | dec
  | hex (upper : Bool)
  | bin (upper : Bool)

namespace Radix

def text : Radix → GCstr
  | dec => []
  | hex upper => ['0'.toUInt8, if upper then 'X'.toUInt8 else 'x'.toUInt8]
  | bin upper => ['0'.toUInt8, if upper then 'B'.toUInt8 else 'b'.toUInt8]

/-- The characters that are scanned as digits. -/
def isDigit : Radix → UInt8 → Bool
  | hex _ => lj_char_isxdigit
  | _ => lj_char_isdigit

end Radix

/-- The suffixes of integers, each letter in either case. -/
def suffixes : List GCstr :=
  let u := ['u'.toUInt8, 'U'.toUInt8]
  let l := ['l'.toUInt8, 'L'.toUInt8]
  [[], [u], [l], [u, l], [l, u], [l, l], [u, l, l], [l, l, u]].flatMap List.sections

/-- The bits that a suffix asks for: two of the letter for a `long long`, one for a `long`. -/
def suffixWidth (long64 : Bool) (suffix : GCstr) : Nat :=
  match suffix.countP (casecmp · 'l') with
  | 0 => 32
  | 1 => if long64 then 64 else 32
  | _ => 64

def signChar (neg : Bool) : UInt8 := if neg then '-'.toUInt8 else '+'.toUInt8

/-- A string of digits with an optional sign, which tells whether it is a minus, in front and an
optional suffix. -/
structure IntegerLiteral where
  sign : Option Bool
  radix : Radix
  digits : GCstr
  suffix : GCstr
  nonempty : digits ≠ []
  areDigits : ∀ c ∈ digits, radix.isDigit c
  isSuffix : suffix ∈ suffixes

namespace IntegerLiteral

variable (lit : IntegerLiteral)

def signText : GCstr :=
  match lit.sign with
  | none => []
  | some neg => [signChar neg]

def text : GCstr := lit.signText ++ (lit.radix.text ++ (lit.digits ++ lit.suffix))

def neg : Bool := lit.sign.getD false

/-- The base of the digits, which a leading zero makes 8 in C. -/
def base (opt : Options) : Nat :=
  match lit.radix with
  | .dec => if opt.has STRSCAN_OPT_C ∧ peek lit.digits = '0'.toUInt8 then 8 else 10
  | .hex _ => 16
  | .bin _ => 2

/-- The magnitude that the digits stand for. -/
def magnitude (opt : Options) : Nat := valueIn (lit.base opt) lit.digits

end IntegerLiteral

/-! ## Suffixes -/

/-- What a suffix asks for, if it is accepted. -/
theorem scanSuffix_asked (long64 : Bool) (opt : Options) : ∀ suffix ∈ suffixes,
    ∀ fmt ∈ scanSuffix long64 opt suffix .int, fmt.width = some (suffixWidth long64 suffix) ∧
      (suffix ≠ [] → fmt = .int → opt.has STRSCAN_OPT_C) := by
  unfold scanSuffix
  generalize opt.has STRSCAN_OPT_C = c
  generalize opt.has STRSCAN_OPT_LL = ll
  generalize opt.has STRSCAN_OPT_IMAG = imag
  revert long64 c ll imag
  decide

/-- A suffix ends the digits, and is not taken for anything else. -/
theorem suffix_facts : ∀ suffix ∈ suffixes, (∀ c ∈ suffix.head?, lj_char_isxdigit c = false ∧ c ≠ '.'.toUInt8) ∧
    casecmp (peek suffix) 'x' = false ∧ casecmp (peek suffix) 'b' = false ∧ casecmp (peek suffix) 'p' = false ∧
    casecmp (peek suffix) 'e' = false := by decide +kernel

/-! ## Digits in front of a suffix -/

/-- The digits behind the leading zeros. -/
def significant (digits : GCstr) : GCstr := digits.dropWhile (· = '0'.toUInt8)

section

variable {digits rest : GCstr}

theorem significant_sublist (digits : GCstr) : (significant digits).Sublist digits := List.dropWhile_sublist _

theorem significant_leading (digits : GCstr) : NoLeadingZero (significant digits) := by
  intro zero
  have first := List.head?_dropWhile_not (· = '0'.toUInt8) digits
  rw [significant] at zero
  rw [zero] at first
  cases first

theorem significant_zero (digits : GCstr) : significant ('0'.toUInt8 :: digits) = significant digits := rfl

theorem significant_digit {c : UInt8} (other : c ≠ '0'.toUInt8) (digits : GCstr) :
    significant (c :: digits) = c :: digits := by
  rw [significant, List.dropWhile_cons, if_neg]
  rwa [decide_eq_true_iff]

theorem valueIn_significant (base : Nat) (digits : GCstr) : valueIn base (significant digits) = valueIn base digits := by
  induction digits with
  | nil => rfl
  | cons c digits induction =>
      by_cases zero : c = '0'.toUInt8
      · have isZero : digitValue '0'.toUInt8 = 0 := rfl
        rw [zero, significant_zero, induction, valueIn_cons, isZero, Nat.zero_mul, Nat.zero_add]
      · rw [significant_digit zero]

/-- Digits without leading zeros are the same as those with them, as far as a zero is one. -/
theorem forall_significant {P : UInt8 → Prop} (zero : P '0'.toUInt8) :
    (∀ c ∈ significant digits, P c) ↔ ∀ c ∈ digits, P c := by
  constructor
  · intro inside
    induction digits with
    | nil => nofun
    | cons c digits induction =>
        by_cases isZero : c = '0'.toUInt8
        · rw [isZero, significant_zero] at inside
          rw [isZero]
          exact List.forall_mem_cons.mpr ⟨zero, induction inside⟩
        · rwa [significant_digit isZero] at inside
  · intro inside c member
    exact inside c ((significant_sublist digits).subset member)

theorem skipZeros_eq (inside : ∀ c ∈ digits, lj_char_isxdigit c)
    (ends : ∀ c ∈ rest.head?, lj_char_isxdigit c = false ∧ c ≠ '.'.toUInt8) (hasdig : Bool) :
    skipZeros (digits ++ rest) hasdig none =
      some (significant digits ++ rest, hasdig || peek digits == '0'.toUInt8, none) := by
  induction digits generalizing hasdig with
  | nil =>
      have plain : (hasdig || peek [] == '0'.toUInt8) = hasdig := Bool.or_false hasdig
      rw [plain]
      cases rest with
      | nil => rfl
      | cons c rest =>
          have ⟨noDigit, noPoint⟩ := ends c rfl
          have notZero : c ≠ '0'.toUInt8 := by
            rintro rfl
            cases noDigit
          change skipZeros (c :: rest) hasdig none = _
          rw [skipZeros, if_neg notZero, if_neg noPoint]
          rfl
  | cons c digits induction =>
      have ⟨isDigit, others⟩ := List.forall_mem_cons.mp inside
      have ⟨noPoint, _⟩ := xdigit_facts c isDigit
      have first : peek (c :: digits) = c := rfl
      rw [List.cons_append, skipZeros, first]
      by_cases zero : c = '0'.toUInt8
      · rw [if_pos zero, induction others, zero, significant_zero, beq_self_eq_true, Bool.or_true, Bool.true_or]
      · rw [if_neg zero, if_neg noPoint, significant_digit zero, beq_eq_false_iff_ne.mpr zero, Bool.or_false]
        rfl

theorem scanDigits_eq {isDigit : UInt8 → Bool} (inside : ∀ c ∈ digits, isDigit c)
    (ends : ∀ c ∈ rest.head?, isDigit c = false ∧ c ≠ '.'.toUInt8) (x : BitVec 32) (dig : Nat) :
    scanDigits isDigit (digits ++ rest) none x dig =
      some (rest, none, digits.foldl (fun x c => x * 10 + (c &&& 15).toBitVec.setWidth 32) x, dig + digits.length) := by
  induction digits generalizing x dig with
  | nil =>
      cases rest with
      | nil => rfl
      | cons c rest =>
          have ⟨noDigit, noPoint⟩ := ends c rfl
          change scanDigits isDigit (c :: rest) none x dig = _
          rw [scanDigits, noDigit, if_neg Bool.false_ne_true, if_neg noPoint]
          rfl
  | cons c digits induction =>
      have ⟨first, others⟩ := List.forall_mem_cons.mp inside
      rw [List.cons_append, scanDigits, first, if_pos rfl, induction others, List.foldl_cons, List.length_cons,
        Nat.add_assoc, Nat.add_comm 1]

/-- The 32 bit integer of the fast path. -/
def accumulated (digits : GCstr) : BitVec 32 :=
  digits.foldl (fun x c => x * 10 + (c &&& 15).toBitVec.setWidth 32) 0

theorem word32_eq (inside : ∀ c ∈ digits, lj_char_isdigit c) (m : Nat) :
    digits.foldl (fun x c => x * 10 + (c &&& 15).toBitVec.setWidth 32) (BitVec.ofNat 32 m) =
      BitVec.ofNat 32 (digits.foldl (fun n c => n * 10 + digitValue c) m) := by
  induction digits generalizing m with
  | nil => rfl
  | cons c digits induction =>
      have ⟨isDigit, others⟩ := List.forall_mem_cons.mp inside
      have ⟨_, _, _, _, _, _, _, _, digit⟩ := digit_facts c isDigit
      have step : BitVec.ofNat 32 m * 10 + (c &&& 15).toBitVec.setWidth 32 = BitVec.ofNat 32 (m * 10 + digitValue c) := by
        rw [digit, BitVec.ofNat_add, BitVec.ofNat_mul]
        rfl
      rw [List.foldl_cons, step, induction others]
      rfl

end

/-! ## Scanning a literal -/

section

variable (long64 : Bool) (opt : Options) (lit : IntegerLiteral) (o : TValue)

/-- The base that a literal is dispatched by, 0 for octal digits. -/
def IntegerLiteral.code : Nat := if lit.base opt = 8 then 0 else lit.base opt

theorem leading_facts : ∀ c : UInt8, lj_char_isdigit c → (c ≤ '0'.toUInt8 → c = '0'.toUInt8) ∧
    casecmp c 'x' = false ∧ casecmp c 'b' = false ∧ ¬c ≥ 'A'.toUInt8 := forall_byte (by decide +kernel)

theorem radix_letters : (∀ upper : Bool, casecmp (if upper then 'X'.toUInt8 else 'x'.toUInt8) 'x' = true) ∧
    ∀ upper : Bool, casecmp (if upper then 'B'.toUInt8 else 'b'.toUInt8) 'x' = false ∧
      casecmp (if upper then 'B'.toUInt8 else 'b'.toUInt8) 'b' = true := by decide

theorem IntegerLiteral.areXDigits : ∀ c ∈ lit.digits, lj_char_isxdigit c := by
  intro c member
  have isDigit := lit.areDigits c member
  cases isRadix : lit.radix with
  | hex upper => rwa [isRadix] at isDigit
  | dec =>
      rw [isRadix] at isDigit
      exact isxdigit_of_isdigit isDigit
  | bin upper =>
      rw [isRadix] at isDigit
      exact isxdigit_of_isdigit isDigit

theorem scanBase_literal : scanBase opt (lit.radix.text ++ (lit.digits ++ lit.suffix)) =
    some (lit.code opt, significant lit.digits ++ lit.suffix, peek lit.digits == '0'.toUInt8, none) := by
  have ⟨ends, noX, noB, _, _⟩ := suffix_facts lit.suffix lit.isSuffix
  have zeros := skipZeros_eq lit.areXDigits ends false
  rw [Bool.false_or] at zeros
  cases isRadix : lit.radix with
  | hex upper =>
      have first : peek ((Radix.hex upper).text ++ (lit.digits ++ lit.suffix)) = '0'.toUInt8 := rfl
      have second : casecmp (peek ((Radix.hex upper).text ++ (lit.digits ++ lit.suffix)).tail) 'x' = true :=
        radix_letters.1 upper
      have behind : ((Radix.hex upper).text ++ (lit.digits ++ lit.suffix)).drop 2 = lit.digits ++ lit.suffix := rfl
      have isHex : lit.code opt = 16 := by rw [IntegerLiteral.code, IntegerLiteral.base, isRadix]; rfl
      rw [scanBase, first, if_pos (UInt8.le_refl _), if_pos rfl, second, if_pos rfl, behind, isHex]
      dsimp only
      rw [zeros]
      rfl
  | bin upper =>
      have first : peek ((Radix.bin upper).text ++ (lit.digits ++ lit.suffix)) = '0'.toUInt8 := rfl
      have second : casecmp (peek ((Radix.bin upper).text ++ (lit.digits ++ lit.suffix)).tail) 'x' = false ∧
          casecmp (peek ((Radix.bin upper).text ++ (lit.digits ++ lit.suffix)).tail) 'b' = true :=
        radix_letters.2 upper
      have behind : ((Radix.bin upper).text ++ (lit.digits ++ lit.suffix)).drop 2 = lit.digits ++ lit.suffix := rfl
      have isBin : lit.code opt = 2 := by rw [IntegerLiteral.code, IntegerLiteral.base, isRadix]; rfl
      rw [scanBase, first, if_pos (UInt8.le_refl _), if_pos rfl, second.1, if_neg Bool.false_ne_true, second.2, if_pos rfl,
        behind, isBin]
      dsimp only
      rw [zeros]
      rfl
  | dec =>
      have isCode : lit.code opt = if opt.has STRSCAN_OPT_C ∧ peek lit.digits = '0'.toUInt8 then 0 else 10 := by
        rw [IntegerLiteral.code, IntegerLiteral.base, isRadix]
        dsimp only
        split <;> rfl
      have areDigits := lit.areDigits
      rw [isRadix] at areDigits
      rw [isCode]
      cases isDigits : lit.digits with
      | nil => exact absurd isDigits lit.nonempty
      | cons c digits =>
          rw [isDigits] at areDigits zeros
          have ⟨isDigit, others⟩ := List.forall_mem_cons.mp areDigits
          have ⟨least, _⟩ := leading_facts c isDigit
          have first : peek (c :: digits ++ lit.suffix) = c := rfl
          have first' : peek (c :: digits) = c := rfl
          change scanBase opt (c :: digits ++ lit.suffix) = _
          rw [scanBase, first, first']
          by_cases zero : c = '0'.toUInt8
          · have second : casecmp (peek (c :: digits ++ lit.suffix).tail) 'x' = false ∧
                casecmp (peek (c :: digits ++ lit.suffix).tail) 'b' = false := by
              cases digits with
              | nil => exact ⟨noX, noB⟩
              | cons c' digits =>
                  have ⟨_, noX, noB, _⟩ := leading_facts c' (others c' List.mem_cons_self)
                  exact ⟨noX, noB⟩
            have least : c ≤ '0'.toUInt8 := by
              rw [zero]
              exact UInt8.le_refl _
            rw [if_pos least, if_pos zero, second.1, second.2, if_neg Bool.false_ne_true, if_neg Bool.false_ne_true]
            dsimp only
            rw [zeros]
            rfl
          · rw [if_neg fun less => zero (least less), if_neg fun both => zero both.2, significant_digit zero,
              beq_eq_false_iff_ne.mpr zero]
            rfl

theorem isDigit_literal : (if lit.code opt = 16 then lj_char_isxdigit else lj_char_isdigit) = lit.radix.isDigit := by
  rw [IntegerLiteral.code, IntegerLiteral.base]
  cases lit.radix with
  | hex upper => rfl
  | bin upper => rfl
  | dec =>
      dsimp only
      split <;> rfl

theorem scanNumber_literal (neg : Bool) : scanNumber long64 opt (lit.radix.text ++ (lit.digits ++ lit.suffix)) o neg =
    ((scanSuffix long64 opt lit.suffix .int).map fun fmt =>
      dispatch opt (significant lit.digits ++ lit.suffix) o fmt (lit.code opt) 0 neg
        (accumulated (significant lit.digits)) (significant lit.digits).length).getD (.error, o) := by
  have ⟨ends, _, _, noP, noE⟩ := suffix_facts lit.suffix lit.isSuffix
  have inside (c : UInt8) (member : c ∈ significant lit.digits) : lit.radix.isDigit c :=
    lit.areDigits c ((significant_sublist lit.digits).subset member)
  have ends' (c : UInt8) (member : c ∈ lit.suffix.head?) : lit.radix.isDigit c = false ∧ c ≠ '.'.toUInt8 := by
    have ⟨noDigit, noPoint⟩ := ends c member
    have noDecimal : lj_char_isdigit c = false :=
      Bool.eq_false_iff.mpr fun isDigit => Bool.eq_false_iff.mp noDigit (isxdigit_of_isdigit isDigit)
    cases lit.radix with
    | hex upper => exact ⟨noDigit, noPoint⟩
    | bin upper => exact ⟨noDecimal, noPoint⟩
    | dec => exact ⟨noDecimal, noPoint⟩
  have some : (peek lit.digits == '0'.toUInt8) = true ∨ (significant lit.digits).length ≠ 0 := by
    cases isDigits : lit.digits with
    | nil => exact absurd isDigits lit.nonempty
    | cons c digits =>
        by_cases zero : c = '0'.toUInt8
        · exact .inl (beq_iff_eq.mpr zero)
        · rw [significant_digit zero]
          exact .inr (Nat.succ_ne_zero _)
  have noExponent : ¬(lit.code opt ≥ 10 ∧ casecmp (peek lit.suffix) (if lit.code opt = 16 then 'p' else 'e') = true) := by
    intro both
    have isLetter := both.2
    split at isLetter
    · rw [noP] at isLetter
      cases isLetter
    · rw [noE] at isLetter
      cases isLetter
  rw [scanNumber, scanBase_literal]
  dsimp only [Option.bind_eq_bind, Option.bind_some, Option.pure_def]
  rw [isDigit_literal, scanDigits_eq inside ends']
  dsimp only [Option.bind_eq_bind, Option.bind_some, Option.pure_def]
  rw [Nat.zero_add, if_neg (not_not.mpr some), if_neg noExponent]
  cases scanSuffix long64 opt lit.suffix .int <;> rfl

theorem sign_facts : ∀ neg, ¬lj_char_isdigit (signChar neg) ∧ ¬lj_char_isspace (signChar neg) ∧
    (signChar neg = '+'.toUInt8 ∨ signChar neg = '-'.toUInt8) ∧ (signChar neg == '-'.toUInt8) = neg := by decide

theorem leading_digit : ∃ c rest, lit.radix.text ++ (lit.digits ++ lit.suffix) = c :: rest ∧ lj_char_isdigit c := by
  have isZero : lj_char_isdigit '0'.toUInt8 := rfl
  cases isRadix : lit.radix with
  | hex upper => exact ⟨_, _, rfl, isZero⟩
  | bin upper => exact ⟨_, _, rfl, isZero⟩
  | dec =>
      have areDigits := lit.areDigits
      rw [isRadix] at areDigits
      cases isDigits : lit.digits with
      | nil => exact absurd isDigits lit.nonempty
      | cons c digits => exact ⟨c, _, rfl, areDigits c (isDigits ▸ List.mem_cons_self)⟩

theorem lj_strscan_scan_literal : lj_strscan_scan long64 opt lit.text o =
    scanNumber long64 opt (lit.radix.text ++ (lit.digits ++ lit.suffix)) o lit.neg := by
  have ⟨c, rest, isText, isDigit⟩ := leading_digit lit
  have ⟨_, _, _, low⟩ := leading_facts c isDigit
  have isPeek : peek (c :: rest) = c := rfl
  rw [IntegerLiteral.text, IntegerLiteral.signText, IntegerLiteral.neg, isText]
  cases lit.sign with
  | none =>
      change lj_strscan_scan long64 opt (c :: rest) o = scanNumber long64 opt (c :: rest) o false
      rw [lj_strscan_scan, isPeek, if_neg (not_not.mpr isDigit)]
  | some neg =>
      have ⟨noDigit, noSpace, isSign, isNeg⟩ := sign_facts neg
      change lj_strscan_scan long64 opt (signChar neg :: c :: rest) o = scanNumber long64 opt (c :: rest) o neg
      have first : peek (signChar neg :: c :: rest) = signChar neg := rfl
      rw [lj_strscan_scan, List.dropWhile_cons_of_neg noSpace]
      dsimp only
      rw [first, if_pos noDigit, if_pos isSign, isNeg, List.tail_cons]
      dsimp only
      rw [isPeek, if_neg low]

end

/-! ## Literals are scanned exactly -/

section

variable {opt : Options} {fmt : StrScanFmt} {neg : Bool} {v : Nat}

theorem convertInteger_exact {r : StrScanFmt × TValue} (scanned : Scanned opt fmt neg v r) :
    Exact opt fmt neg v (convertInteger opt r) := by
  rw [convertInteger]
  split
  · next both =>
      have ⟨isInt, plain, isDouble⟩ := scanned.double both.1
      dsimp only
      split
      · next same =>
          have ⟨low, high⟩ := Num.num2int_range r.2
          have value : signed neg v = Num.num2int r.2 := eq_ofInt isDouble (by omega) same
          have magnitude : v = (Num.num2int r.2).natAbs := by rw [← value, natAbs_signed]
          exact {
            stored := by
              intro w isWidth
              cases isWidth
              exact ⟨by omega, by rw [TValue.setI_low, value]⟩
            range := by
              intro _
              rw [value]
              exact ⟨low, high⟩
            format := .inr (.inr (isInt ▸ rfl))
            refused := by
              intro asked
              rcases asked with other | c
              · exact absurd isInt other
              · rw [plain] at c
                cases c }
      · exact scanned.toExact
  · exact scanned.toExact

/-- The accumulated integer of the fast path has not wrapped around. -/
theorem accumulated_bound {digits : GCstr} (inside : ∀ c ∈ digits, lj_char_isdigit c) (rest : GCstr)
    (short : digits.length < 10 ∨ digits.length = 10 ∧ peek (digits ++ rest) ≤ '2'.toUInt8 ∧
      (accumulated digits).setWidth 64 < limit neg) : valueIn 10 digits < 2 ^ 31 + neg.toNat := by
  have small (c : UInt8) (member : c ∈ digits) : digitValue c < 10 := (digit_facts c (inside c member)).1
  have isWord : accumulated digits = BitVec.ofNat 32 (valueIn 10 digits) := by
    rw [valueIn_foldl]
    exact word32_eq inside 0
  rcases short with few | ⟨ten, low, below⟩
  · calc valueIn 10 digits < 10 ^ digits.length := valueIn_lt small
      _ ≤ 10 ^ 9 := Nat.pow_le_pow_right (by decide) (by omega)
      _ ≤ 2 ^ 31 + neg.toNat := Nat.le_add_right_of_le (by decide)
  · have within : valueIn 10 digits < 2 ^ 32 := by
      cases digits with
      | nil => cases ten
      | cons c digits =>
          have ⟨_, _, _, _, _, _, _, two, _⟩ := digit_facts c (inside c List.mem_cons_self)
          have first : digitValue c ≤ 2 := two.mp low
          have others := valueIn_lt (List.forall_mem_cons.mp small).2
          have count : digits.length = 9 := by
            rw [List.length_cons] at ten
            omega
          rw [count] at others
          rw [valueIn_cons, count]
          omega
    have less : ((accumulated digits).setWidth 64).toNat < (limit neg).toNat := below
    rw [isWord, BitVec.toNat_setWidth, BitVec.toNat_ofNat, limit_eq] at less
    omega

theorem fast_exact {digits : GCstr} (inside : ∀ c ∈ digits, lj_char_isdigit c)
    (below : valueIn 10 digits < 2 ^ 31 + neg.toNat) (o : TValue) :
    Exact opt .int neg (valueIn 10 digits)
      (if opt.has STRSCAN_OPT_TONUM then (.num, Num.ofInt (negated neg (accumulated digits)).toInt)
        else (.int, o.setI (negated neg (accumulated digits)))) := by
  have bound := neg.toNat_le
  have isWord : accumulated digits = BitVec.ofNat 32 (valueIn 10 digits) := by
    rw [valueIn_foldl]
    exact word32_eq inside 0
  rw [isWord]
  split
  · exact {
      stored := nofun
      range := nofun
      format := .inr (.inl rfl)
      refused := by
        intro _ w isWidth large
        cases isWidth
        omega }
  · exact exact_32 .int o rfl (by omega) (fun _ => below) rfl

end

section

variable {opt : Options} {sp : GCstr} {o : TValue} {fmt : StrScanFmt} {ex : Int} {neg : Bool} {x : BitVec 32} {dig : Nat}

theorem dispatch_hex : dispatch opt sp o fmt 16 ex neg x dig = convertInteger opt (strscan_hex sp o fmt opt ex neg dig) := by
  simp [dispatch]

theorem dispatch_bin : dispatch opt sp o fmt 2 ex neg x dig = convertInteger opt (strscan_bin sp o fmt opt ex neg dig) := by
  simp [dispatch]

theorem dispatch_oct (isInteger : fmt.width ≠ none) :
    dispatch opt sp o fmt 0 ex neg x dig = strscan_oct sp o fmt neg dig := by
  have notDouble : ¬(fmt = .num ∨ fmt = .imag) := by
    rintro (rfl | rfl) <;> exact isInteger rfl
  simp [dispatch, notDouble]

theorem dispatch_dec (slow : ¬(fmt = .int ∧
      (dig < 10 ∨ dig = 10 ∧ peek sp ≤ '2'.toUInt8 ∧ x.setWidth 64 < limit neg))) :
    dispatch opt sp o fmt 10 ex neg x dig = convertInteger opt (strscan_dec sp o fmt opt ex neg dig) := by
  rw [dispatch, if_neg fun fast => slow ⟨fast.1, fast.2.2⟩]
  rfl

end

/-- A literal is refused, or all its digits are of its base and it is scanned exactly. -/
def RefusedOrExact (opt : Options) (fmt : StrScanFmt) (lit : IntegerLiteral) (r : StrScanFmt × TValue) : Prop :=
  r.1 = .error ∨ (∀ c ∈ lit.digits, digitValue c < lit.base opt) ∧ Exact opt fmt lit.neg (lit.magnitude opt) r

theorem dispatch_exact {opt : Options} {fmt : StrScanFmt} (isInteger : fmt.width ≠ none) (lit : IntegerLiteral) (o : TValue) :
    RefusedOrExact opt fmt lit (dispatch opt (significant lit.digits ++ lit.suffix) o fmt (lit.code opt) 0 lit.neg
      (accumulated (significant lit.digits)) (significant lit.digits).length) := by
  have leading := significant_leading lit.digits
  have inside (c : UInt8) (member : c ∈ significant lit.digits) : lit.radix.isDigit c :=
    lit.areDigits c ((significant_sublist lit.digits).subset member)
  rw [RefusedOrExact, IntegerLiteral.magnitude, ← valueIn_significant]
  cases isRadix : lit.radix with
  | hex upper =>
      have isBase : lit.base opt = 16 := by rw [IntegerLiteral.base, isRadix]
      have isCode : lit.code opt = 16 := by rw [IntegerLiteral.code, isBase]; rfl
      rw [isRadix] at inside
      rw [isBase, isCode, dispatch_hex]
      right
      constructor
      · intro c member
        exact (xdigit_facts c (lit.areXDigits c member)).2.1
      · exact convertInteger_exact (strscan_hex_scanned isInteger inside leading lit.suffix o)
  | bin upper =>
      have isBase : lit.base opt = 2 := by rw [IntegerLiteral.base, isRadix]
      have isCode : lit.code opt = 2 := by rw [IntegerLiteral.code, isBase]; rfl
      rw [isRadix] at inside
      rw [isBase, isCode, dispatch_bin]
      have outcome : _ ∨ _ ∧ Scanned opt fmt lit.neg _ _ := strscan_bin_scanned isInteger inside leading lit.suffix o
      rcases outcome with refused | ⟨small, scanned⟩
      · left
        rw [refused]
        rfl
      · exact .inr ⟨(forall_significant (by decide)).mp small, convertInteger_exact scanned⟩
  | dec =>
      rw [isRadix] at inside
      by_cases octal : opt.has STRSCAN_OPT_C ∧ peek lit.digits = '0'.toUInt8
      · have isBase : lit.base opt = 8 := by rw [IntegerLiteral.base, isRadix]; exact if_pos octal
        have isCode : lit.code opt = 0 := by rw [IntegerLiteral.code, isBase]; rfl
        rw [isBase, isCode, dispatch_oct isInteger]
        have outcome : _ ∨ _ ∧ Exact opt fmt lit.neg _ _ := strscan_oct_scanned isInteger inside leading lit.suffix o
        rcases outcome with refused | ⟨small, scanned⟩
        · left
          rw [refused]
        · exact .inr ⟨(forall_significant (by decide)).mp small, scanned⟩
      · have isBase : lit.base opt = 10 := by rw [IntegerLiteral.base, isRadix]; exact if_neg octal
        have isCode : lit.code opt = 10 := by rw [IntegerLiteral.code, isBase]; rfl
        have areDigits := lit.areDigits
        rw [isRadix] at areDigits
        rw [isBase, isCode]
        right
        constructor
        · intro c member
          exact (digit_facts c (areDigits c member)).1
        · by_cases fast : fmt = .int ∧ ((significant lit.digits).length < 10 ∨ (significant lit.digits).length = 10 ∧
              peek (significant lit.digits ++ lit.suffix) ≤ '2'.toUInt8 ∧
              (accumulated (significant lit.digits)).setWidth 64 < limit lit.neg)
          · rw [dispatch, if_pos ⟨fast.1, rfl, fast.2⟩, fast.1]
            exact fast_exact inside (accumulated_bound inside lit.suffix fast.2) o
          · rw [dispatch_dec fast]
            exact convertInteger_exact (strscan_dec_scanned isInteger inside leading lit.suffix o)

/-- A literal is refused, or scanned exactly in the format that its suffix asks for. -/
theorem scan_literal (long64 : Bool) (opt : Options) (lit : IntegerLiteral) (o : TValue) :
    (lj_strscan_scan long64 opt lit.text o).1 = .error ∨
      ∃ fmt : StrScanFmt, fmt.width = some (suffixWidth long64 lit.suffix) ∧
        (lit.suffix ≠ [] → fmt = .int → opt.has STRSCAN_OPT_C) ∧ (∀ c ∈ lit.digits, digitValue c < lit.base opt) ∧
        Exact opt fmt lit.neg (lit.magnitude opt) (lj_strscan_scan long64 opt lit.text o) := by
  rw [lj_strscan_scan_literal, scanNumber_literal]
  cases accepted : scanSuffix long64 opt lit.suffix .int with
  | none => exact .inl rfl
  | some fmt =>
      have ⟨width, marked⟩ := scanSuffix_asked long64 opt lit.suffix lit.isSuffix fmt accepted
      have isInteger : fmt.width ≠ none := by
        rw [width]
        nofun
      rcases dispatch_exact isInteger lit o with refused | exact'
      · exact .inl refused
      · exact .inr ⟨fmt, width, marked, exact'⟩

/-- An integer literal is scanned exactly, with all its digits of its base, or it is refused or, without
a suffix and outside of C, converted to a double. -/
theorem lj_strscan_scan_exact (long64 : Bool) (opt : Options) (lit : IntegerLiteral) (o : TValue) :
    (∀ w ∈ (lj_strscan_scan long64 opt lit.text o).1.width,
      (∀ c ∈ lit.digits, digitValue c < lit.base opt) ∧ lit.magnitude opt < 2 ^ w ∧
        (lj_strscan_scan long64 opt lit.text o).2.setWidth w = .ofInt w (signed lit.neg (lit.magnitude opt))) ∧
    ((lj_strscan_scan long64 opt lit.text o).1 = .int →
      -2 ^ 31 ≤ signed lit.neg (lit.magnitude opt) ∧ signed lit.neg (lit.magnitude opt) < 2 ^ 31) ∧
    (2 ^ suffixWidth long64 lit.suffix ≤ lit.magnitude opt →
      (lj_strscan_scan long64 opt lit.text o).1 = .error ∨
        (lj_strscan_scan long64 opt lit.text o).1 = .num ∧ lit.suffix = [] ∧ opt.has STRSCAN_OPT_C = false) := by
  have outcome := scan_literal long64 opt lit o
  generalize lj_strscan_scan long64 opt lit.text o = r at outcome
  rcases outcome with refused | ⟨fmt, width, marked, small, exact'⟩
  · rw [refused]
    exact ⟨nofun, nofun, fun _ => .inl rfl⟩
  · constructor
    · intro w isWidth
      exact ⟨small, exact'.stored w isWidth⟩
    · constructor
      · exact exact'.range
      · intro large
        by_cases asked : fmt ≠ .int ∨ opt.has STRSCAN_OPT_C
        · exact .inl (exact'.refused asked _ width large)
        · have ⟨isInt, plain⟩ := not_or.mp asked
          have noSuffix : lit.suffix = [] := by
            by_contra some
            exact plain (marked some (not_not.mp isInt))
          rcases exact'.format with refused | isNum | isWidth
          · exact .inl refused
          · exact .inr ⟨isNum, noSuffix, Bool.eq_false_iff.mpr plain⟩
          · have below := (exact'.stored _ (isWidth.trans width)).1
            omega

/-- 2^32 in hexadecimal digits. -/
def largeLiteral : IntegerLiteral where
  sign := none
  radix := .hex false
  digits := '1'.toUInt8 :: List.replicate 8 '0'.toUInt8
  suffix := []
  nonempty := by decide
  areDigits := by decide +kernel
  isSuffix := by decide

/-- Without a suffix, an integer that does not fit 32 bits is a number, and not an error. -/
theorem large_is_number : ¬∀ (long64 : Bool) (opt : Options) (lit : IntegerLiteral) (o : TValue),
    2 ^ suffixWidth long64 lit.suffix ≤ lit.magnitude opt → (lj_strscan_scan long64 opt lit.text o).1 = .error := by
  intro refused
  have large : 2 ^ suffixWidth false largeLiteral.suffix ≤ largeLiteral.magnitude 0 := by decide
  have number : (lj_strscan_scan false 0 largeLiteral.text 0).1 = .num := by decide
  have error := refused false 0 largeLiteral 0 large
  rw [number] at error
  cases error

end TvmJit.Scan
