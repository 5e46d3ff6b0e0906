import TvmJit.Scan.Integers
import Mathlib.Data.FinEnum

/-! Digits and their values, and the parsers for the bases that are powers of two. -/

namespace TvmJit.Scan

open Foundation

/-- The value of a digit. -/
def digitValue (c : UInt8) : Nat := if lj_char_isdigit c then c.toNat - 48 else (c ||| 0x20).toNat - 87

/-- The number that digits stand for in a base. -/
def valueIn (base : Nat) (digits : GCstr) : Nat := numeral base (digits.map digitValue)

/-- The digits without leading zeros. -/
def NoLeadingZero (digits : GCstr) : Prop := digits.head? ≠ some '0'.toUInt8

theorem forall_byte {P : UInt8 → Prop} (each : ∀ n < 256, P (.ofNat n)) (c : UInt8) : P c := by
  have at' := each c.toNat c.toNat_lt
  rwa [UInt8.ofNat_toNat] at at'

/-! ## Single digits -/

theorem isxdigit_of_isdigit {c : UInt8} (isDigit : lj_char_isdigit c) : lj_char_isxdigit c := by
  rw [lj_char_isxdigit, isDigit]
  rfl

theorem xdigit_facts : ∀ c : UInt8, lj_char_isxdigit c → c ≠ '.'.toUInt8 ∧ digitValue c < 16 ∧
    (digitValue c = 0 → c = '0'.toUInt8) ∧
    (if c > '9'.toUInt8 then c.toBitVec.setWidth 64 + 9 else c.toBitVec.setWidth 64) &&& 15 =
      BitVec.ofNat 64 (digitValue c) :=
  forall_byte (by decide +kernel)

theorem digit_facts : ∀ c : UInt8, lj_char_isdigit c → digitValue c < 10 ∧ (c &&& 15).toNat = digitValue c ∧
    (c ≥ '0'.toUInt8 ∧ c ≤ '7'.toUInt8 ↔ digitValue c < 8) ∧ (c &&& ~~~1 ≠ '0'.toUInt8 ↔ ¬digitValue c < 2) ∧
    c.toBitVec.setWidth 64 &&& 7 = BitVec.ofNat 64 (digitValue c % 8) ∧
    c.toBitVec.setWidth 64 &&& 1 = BitVec.ofNat 64 (digitValue c % 2) ∧
    (c > '1'.toUInt8 ↔ 1 < digitValue c) ∧ (c ≤ '2'.toUInt8 ↔ digitValue c ≤ 2) ∧
    (c &&& 15).toBitVec.setWidth 32 = BitVec.ofNat 32 (digitValue c) :=
  forall_byte (by decide +kernel)

theorem next_digit {c : UInt8} (noPoint : c ≠ '.'.toUInt8) (p : GCstr) : next (c :: p) = (c, p) := if_pos noPoint

/-! ## Digits -/

section

variable {base : Nat} {digits : GCstr}

theorem valueIn_cons (base : Nat) (c : UInt8) (digits : GCstr) :
    valueIn base (c :: digits) = digitValue c * base ^ digits.length + valueIn base digits := by
  rw [valueIn, List.map_cons, numeral_cons, List.length_map]
  rfl

theorem valueIn_lt (small : ∀ c ∈ digits, digitValue c < base) : valueIn base digits < base ^ digits.length := by
  have values : ∀ d ∈ digits.map digitValue, d < base := by
    intro d member
    have ⟨c, inside, value⟩ := List.mem_map.mp member
    exact value ▸ small c inside
  have below := numeral_lt values
  rwa [List.length_map] at below

/-- Digits without leading zeros tell the size from below. -/
theorem pow_le_valueIn (inside : ∀ c ∈ digits, lj_char_isxdigit c) (leading : NoLeadingZero digits)
    {n : Nat} (long : n < digits.length) (positive : 1 ≤ base) : base ^ n ≤ valueIn base digits := by
  cases digits with
  | nil => cases long
  | cons c digits =>
      have some : digitValue c ≠ 0 := by
        intro zero
        apply leading
        rw [(xdigit_facts c (inside c List.mem_cons_self)).2.2.1 zero]
        rfl
      calc base ^ n ≤ base ^ (digits.map digitValue).length := by
            apply Nat.pow_le_pow_right positive
            rw [List.length_map]
            exact Nat.le_of_lt_succ long
        _ ≤ valueIn base (c :: digits) := pow_le_numeral some

/-- So many digits are needed. -/
theorem length_le_iff (inside : ∀ c ∈ digits, lj_char_isxdigit c) (small : ∀ c ∈ digits, digitValue c < base)
    (leading : NoLeadingZero digits) (positive : 1 ≤ base) (n : Nat) :
    digits.length ≤ n ↔ valueIn base digits < base ^ n := by
  constructor
  · intro short
    exact (valueIn_lt small).trans_le (Nat.pow_le_pow_right positive short)
  · intro below
    by_contra long
    have above := pow_le_valueIn inside leading (Nat.lt_of_not_le long) positive
    omega

/-- Digits that are put into a word one after another. -/
theorem valueIn_foldl (base : Nat) (digits : GCstr) :
    valueIn base digits = digits.foldl (fun n c => n * base + digitValue c) 0 := List.foldl_map

end

/-! ## Words -/

theorem ofNat_shift (m d k : Nat) : BitVec.ofNat 64 m <<< k + BitVec.ofNat 64 d = BitVec.ofNat 64 (m * 2 ^ k + d) := by
  have shifted : BitVec.ofNat 64 m <<< k = BitVec.ofNat 64 m * BitVec.ofNat 64 (2 ^ k) := by
    apply BitVec.eq_of_toNat_eq
    rw [BitVec.toNat_shiftLeft, BitVec.toNat_mul, Nat.shiftLeft_eq, BitVec.toNat_ofNat (2 ^ k), Nat.mul_mod_mod]
  rw [shifted, BitVec.ofNat_add, BitVec.ofNat_mul]

/-- A bit below others is added. -/
theorem ofNat_shift_one (m : Nat) {d : Nat} (bit : d < 2) :
    BitVec.ofNat 64 m <<< 1 ||| BitVec.ofNat 64 d = BitVec.ofNat 64 (m * 2 + d) := by
  have disjoint : BitVec.ofNat 64 m <<< 1 &&& BitVec.ofNat 64 d = 0 := by
    apply BitVec.eq_of_getLsbD_eq
    intro i inside
    rw [BitVec.getLsbD_and, BitVec.getLsbD_shiftLeft]
    cases i with
    | zero => simp
    | succ i =>
        have high : (BitVec.ofNat 64 d).getLsbD (i + 1) = false := by
          rw [BitVec.getLsbD_ofNat, Nat.testBit_lt_two_pow (bit.trans_le (Nat.le_self_pow (by omega) 2)), Bool.and_false]
        rw [high, Bool.and_false]
        exact BitVec.getLsbD_zero.symm
  rw [← BitVec.add_eq_or_of_and_eq_zero _ _ disjoint]
  exact ofNat_shift m d 1

section

variable {digits : GCstr}

theorem hexDigits_eq (inside : ∀ c ∈ digits, lj_char_isxdigit c) (m : Nat) (rest : GCstr) :
    hexDigits digits.length (.ofNat 64 m) (digits ++ rest) =
      (.ofNat 64 (digits.foldl (fun n c => n * 16 + digitValue c) m), rest) := by
  induction digits generalizing m with
  | nil => rfl
  | cons c digits induction =>
      have ⟨isDigit, others⟩ := List.forall_mem_cons.mp inside
      have ⟨noPoint, _, _, digit⟩ := xdigit_facts c isDigit
      rw [List.length_cons, List.cons_append, hexDigits, next_digit noPoint]
      dsimp only
      rw [digit, ofNat_shift, induction others]
      rfl

theorem octDigits_eq (inside : ∀ c ∈ digits, lj_char_isdigit c) (m : Nat) (rest : GCstr) :
    octDigits digits.length (.ofNat 64 m) (digits ++ rest) =
      if ∀ c ∈ digits, digitValue c < 8 then some (.ofNat 64 (digits.foldl (fun n c => n * 8 + digitValue c) m))
      else none := by
  induction digits generalizing m with
  | nil => rw [if_pos nofun]; rfl
  | cons c digits induction =>
      have ⟨isDigit, others⟩ := List.forall_mem_cons.mp inside
      have ⟨_, _, octal, _, digit, _⟩ := digit_facts c isDigit
      have head : peek (c :: digits ++ rest) = c := rfl
      have tail : (c :: digits ++ rest).tail = digits ++ rest := rfl
      rw [List.length_cons, octDigits, head, tail]
      by_cases small : digitValue c < 8
      · rw [if_neg (not_not.mpr (octal.mpr small)), digit, ofNat_shift, induction others, Nat.mod_eq_of_lt small]
        simp only [List.forall_mem_cons, small, true_and]
        rfl
      · rw [if_pos (mt octal.mp small), if_neg fun all => small (all c List.mem_cons_self)]

theorem binDigits_eq (inside : ∀ c ∈ digits, lj_char_isdigit c) (m : Nat) (rest : GCstr) :
    binDigits digits.length (.ofNat 64 m) (digits ++ rest) =
      if ∀ c ∈ digits, digitValue c < 2 then some (.ofNat 64 (digits.foldl (fun n c => n * 2 + digitValue c) m))
      else none := by
  induction digits generalizing m with
  | nil => rw [if_pos nofun]; rfl
  | cons c digits induction =>
      have ⟨isDigit, others⟩ := List.forall_mem_cons.mp inside
      have ⟨_, _, _, binary, _, digit, _⟩ := digit_facts c isDigit
      have head : peek (c :: digits ++ rest) = c := rfl
      have tail : (c :: digits ++ rest).tail = digits ++ rest := rfl
      rw [List.length_cons, binDigits, head, tail]
      by_cases small : digitValue c < 2
      · rw [if_neg fun other => binary.mp other small, digit, ofNat_shift_one _ (Nat.mod_lt _ (by decide)),
          induction others, Nat.mod_eq_of_lt small]
        simp only [List.forall_mem_cons, small, true_and]
        rfl
      · rw [if_pos (binary.mpr small), if_neg fun all => small (all c List.mem_cons_self)]

end

/-! ## Doubles -/

/-- The upper two bits. -/
theorem upper_bits (x : BitVec 64) : x &&& 0xc000000000000000 = 0 ↔ x.toNat < 2 ^ 62 := by
  have mask : (0xc000000000000000 : BitVec 64) = (3 : BitVec 64) <<< 62 := rfl
  have three : (3 : BitVec 64).toNat = 2 ^ 2 - 1 := rfl
  have bound := x.isLt
  have value : ((x >>> 62) &&& 3).toNat = x.toNat / 2 ^ 62 := by
    rw [BitVec.toNat_and, BitVec.toNat_ushiftRight, three, Nat.and_two_pow_sub_one_eq_mod, Nat.shiftRight_eq_div_pow]
    omega
  have shifted : (x &&& 0xc000000000000000) >>> 62 = x >>> 62 &&& 3 := by
    rw [BitVec.ushiftRight_and_distrib]
    rfl
  constructor
  · intro zero
    rw [zero] at shifted
    have none := congrArg BitVec.toNat shifted
    rw [value] at none
    change 0 = _ at none
    omega
  · intro small
    apply BitVec.eq_of_getLsbD_eq
    intro i inside
    rw [BitVec.getLsbD_and]
    rcases Nat.lt_or_ge i 62 with low | high
    · have clear : (0xc000000000000000 : BitVec 64).getLsbD i = false := by
        rw [mask, BitVec.getLsbD_shiftLeft, decide_eq_true low]
        simp
      rw [clear, Bool.and_false]
      exact BitVec.getLsbD_zero.symm
    · have clear : x.getLsbD i = false := Nat.testBit_lt_two_pow (small.trans_le (Nat.pow_le_pow_right (by decide) high))
      rw [clear, Bool.false_and]
      exact BitVec.getLsbD_zero.symm

theorem reduced_large {x : BitVec 64} {ex2 : Int} (neg : Bool) (large : 2 ^ 53 ≤ x.toNat) (up : 0 ≤ ex2) :
    1076 ≤ (reduced x ex2 neg).expBits := by
  rw [reduced]
  split
  · next upper =>
      have high : 2 ^ 62 ≤ x.toNat := Nat.le_of_not_lt fun small => upper ((upper_bits x).mpr small)
      have bound := x.isLt
      have three : (3 : BitVec 64).toNat = 2 ^ 2 - 1 := rfl
      have value : (x >>> 2 ||| x &&& 3).toNat = x.toNat / 4 ||| x.toNat % 4 := by
        rw [BitVec.toNat_or, BitVec.toNat_and, three, Nat.and_two_pow_sub_one_eq_mod, BitVec.toNat_ushiftRight,
          Nat.shiftRight_eq_div_pow]
      have most : x.toNat / 4 ||| x.toNat % 4 < 2 ^ 62 := Nat.or_lt_two_pow (by omega) (by omega)
      have least : x.toNat / 4 ≤ x.toNat / 4 ||| x.toNat % 4 := Nat.left_le_or
      exact strscan_double_large neg (by omega) (by omega) (by omega)
  · next low =>
      have small := (upper_bits x).mp (not_not.mp low)
      exact strscan_double_large neg large (by omega) up

theorem isDouble_reduced (x : BitVec 64) (neg : Bool) : IsDouble neg x.toNat (reduced x 0 neg) := by
  rcases Nat.lt_or_ge x.toNat (2 ^ 53) with small | large
  · have low := (upper_bits x).mpr (by omega)
    rw [reduced, if_neg (not_not.mpr low)]
    exact isDouble_toDouble (by omega) neg
  · exact .inr (reduced_large neg large (Int.le_refl 0))

/-! ## The parsers -/

section

variable {opt : Options} {fmt : StrScanFmt} {neg : Bool} {digits : GCstr}

/-- A number is in an integer format, or a double. -/
theorem scanned_of_formatInteger {v : Nat} {result : (StrScanFmt × TValue) ⊕ StrScanFmt} {n : Num}
    (formatted : result.elim (Scanned opt fmt neg v) fun fmt' =>
      fmt' = .num ∧ fmt = .int ∧ opt.has STRSCAN_OPT_C = false)
    (isDouble : IsDouble neg v n) : Scanned opt fmt neg v (result.elim id fun fmt' => (fmt', n)) := by
  cases result with
  | inl r => exact formatted
  | inr fmt' =>
      have ⟨isNum, isInt, plain⟩ := formatted
      subst isNum isInt
      exact .num plain isDouble

/-- The excess digits add bits below. -/
theorem excessHex_le (n : Nat) (x : BitVec 64) (ex2 : Int) (p : GCstr) :
    x.toNat ≤ (excessHex n x ex2 p).1.toNat ∧ ex2 ≤ (excessHex n x ex2 p).2 := by
  induction n generalizing x ex2 p with
  | zero => exact ⟨Nat.le_refl _, Int.le_refl _⟩
  | succ n induction =>
      rw [excessHex]
      have ⟨more, up⟩ := induction (x ||| if (next p).1 ≠ '0'.toUInt8 then 1 else 0) (ex2 + 4) (next p).2
      refine ⟨Nat.le_trans ?_ more, Int.le_trans (by omega) up⟩
      rw [BitVec.toNat_or]
      exact Nat.left_le_or

theorem strscan_hex_eq {p p' : GCstr} {x x' : BitVec 64} {ex2 ex2' : Int} {dig : Nat}
    (scanned : hexDigits (if dig > 16 then 16 else dig) 0 p = (x, p'))
    (excess : excessHex (dig - 16) x ex2 p' = (x', ex2')) (o : TValue) :
    strscan_hex p o fmt opt ex2 neg dig =
      (formatInteger opt fmt neg (dig ≤ 8) (dig ≤ 16) x' o).elim id fun fmt => (fmt, reduced x' ex2' neg) := by
  rw [strscan_hex, scanned]
  dsimp only
  rw [excess]

theorem strscan_hex_scanned (isInteger : fmt.width ≠ none) (inside : ∀ c ∈ digits, lj_char_isxdigit c)
    (leading : NoLeadingZero digits) (rest : GCstr) (o : TValue) :
    Scanned opt fmt neg (valueIn 16 digits) (strscan_hex (digits ++ rest) o fmt opt 0 neg digits.length) := by
  have small (c : UInt8) (member : c ∈ digits) : digitValue c < 16 := (xdigit_facts c (inside c member)).2.1
  have fits (n : Nat) : digits.length ≤ n ↔ valueIn 16 digits < 16 ^ n :=
    length_le_iff inside small leading (by decide) n
  have is32 : decide (digits.length ≤ 8) = decide (valueIn 16 digits < 2 ^ 32) := decide_eq_decide.mpr (fits 8)
  have is64 : decide (digits.length ≤ 16) = decide (valueIn 16 digits < 2 ^ 64) := decide_eq_decide.mpr (fits 16)
  rcases Nat.lt_or_ge 16 digits.length with long | short
  · have parts : digits ++ rest = digits.take 16 ++ (digits.drop 16 ++ rest) := by
      rw [← List.append_assoc, List.take_append_drop]
    have count : (digits.take 16).length = 16 := List.length_take_of_le (by omega)
    have inside' (c : UInt8) (member : c ∈ digits.take 16) : lj_char_isxdigit c := inside c (List.mem_of_mem_take member)
    have leading' : NoLeadingZero (digits.take 16) := by
      rwa [NoLeadingZero, List.head?_take, if_neg (by decide)]
    have small' (c : UInt8) (member : c ∈ digits.take 16) : digitValue c < 16 := small c (List.mem_of_mem_take member)
    have scanned := hexDigits_eq inside' 0 (digits.drop 16 ++ rest)
    rw [count, ← valueIn_foldl, ← parts] at scanned
    have above : 16 ^ 15 ≤ valueIn 16 (digits.take 16) := pow_le_valueIn inside' leading' (by omega) (by decide)
    have below : valueIn 16 (digits.take 16) < 16 ^ 16 := by
      have most := valueIn_lt small'
      rwa [count] at most
    generalize valueIn 16 (digits.take 16) = v at above below scanned
    have value : (BitVec.ofNat 64 v).toNat = v := by rw [BitVec.toNat_ofNat, Nat.mod_eq_of_lt (show v < 2 ^ 64 from below)]
    have ⟨more, up⟩ := excessHex_le (digits.length - 16) (.ofNat 64 v) 0 (digits.drop 16 ++ rest)
    have ⟨x, ex2, excess⟩ : ∃ x ex2, excessHex (digits.length - 16) (.ofNat 64 v) 0 (digits.drop 16 ++ rest) = (x, ex2) :=
      ⟨_, _, rfl⟩
    rw [excess, value] at more
    rw [excess] at up
    have beyond : ¬valueIn 16 digits < 2 ^ 64 := mt (fits 16).mpr (Nat.not_le_of_lt long)
    have scanned' : hexDigits (if digits.length > 16 then 16 else digits.length) 0 (digits ++ rest) =
        (.ofNat 64 v, digits.drop 16 ++ rest) := by
      rw [if_pos long]
      exact scanned
    have large : 16 ^ 15 ≤ x.toNat := above.trans more
    rw [strscan_hex_eq scanned' excess]
    apply scanned_of_formatInteger
    · exact formatInteger_exact isInteger (fun fits => absurd fits beyond) (fun _ => le_trans (by decide) large) is32
        (.inl is64)
    · exact .inr (reduced_large neg (le_trans (by decide) large) up)
  · have scanned : hexDigits (if digits.length > 16 then 16 else digits.length) 0 (digits ++ rest) =
        (.ofNat 64 (valueIn 16 digits), rest) := by
      rw [if_neg (Nat.not_lt_of_le short), valueIn_foldl]
      exact hexDigits_eq inside 0 rest
    have excess : excessHex (digits.length - 16) (.ofNat 64 (valueIn 16 digits)) 0 rest =
        (.ofNat 64 (valueIn 16 digits), 0) := by
      rw [Nat.sub_eq_zero_of_le short]
      rfl
    have below : valueIn 16 digits < 2 ^ 64 := (fits 16).mp short
    have double := isDouble_reduced (.ofNat 64 (valueIn 16 digits)) neg
    rw [BitVec.toNat_ofNat, Nat.mod_eq_of_lt below] at double
    rw [strscan_hex_eq scanned excess]
    apply scanned_of_formatInteger
    · exact formatInteger_exact isInteger (fun _ => rfl) (fun beyond => absurd below (Nat.not_lt_of_le beyond)) is32 (.inl is64)
    · exact double

theorem strscan_bin_scanned (isInteger : fmt.width ≠ none) (inside : ∀ c ∈ digits, lj_char_isdigit c)
    (leading : NoLeadingZero digits) (rest : GCstr) (o : TValue) :
    strscan_bin (digits ++ rest) o fmt opt 0 neg digits.length = (.error, o) ∨ (∀ c ∈ digits, digitValue c < 2) ∧
      Scanned opt fmt neg (valueIn 2 digits) (strscan_bin (digits ++ rest) o fmt opt 0 neg digits.length) := by
  have scanned : binDigits digits.length 0 (digits ++ rest) =
      if ∀ c ∈ digits, digitValue c < 2 then some (.ofNat 64 (valueIn 2 digits)) else none := by
    rw [valueIn_foldl]
    exact binDigits_eq inside 0 rest
  rw [strscan_bin, scanned]
  by_cases long : digits.length > 64
  · rw [if_pos (.inr long)]
    exact .inl rfl
  rw [if_neg fun either => either.elim (fun some => some rfl) long]
  by_cases small : ∀ c ∈ digits, digitValue c < 2
  · right
    have fits (n : Nat) : digits.length ≤ n ↔ valueIn 2 digits < 2 ^ n :=
      length_le_iff (fun c member => isxdigit_of_isdigit (inside c member)) small leading (by decide) n
    have below : valueIn 2 digits < 2 ^ 64 := (fits 64).mp (Nat.le_of_not_lt long)
    have double := isDouble_reduced (.ofNat 64 (valueIn 2 digits)) neg
    rw [BitVec.toNat_ofNat, Nat.mod_eq_of_lt below] at double
    rw [if_pos small]
    refine ⟨small, ?_⟩
    apply scanned_of_formatInteger
    · exact formatInteger_exact isInteger (fun _ => rfl) (fun beyond => absurd below (Nat.not_lt_of_le beyond))
        (decide_eq_decide.mpr (fits 32)) (.inr ⟨rfl, below⟩)
    · exact double
  · rw [if_neg small]
    exact .inl rfl

/-- The format-specific handling of octal numbers. -/
theorem strscan_oct_exact {v : Nat} (isInteger : fmt.width ≠ none) (below : v < 2 ^ 64) (o : TValue) :
    Exact opt fmt neg v (match fmt with
      | .int | .u32 =>
          let fmt := if fmt = .int ∧ BitVec.ofNat 64 v ≥ limit neg then .u32 else fmt
          if BitVec.ofNat 64 v >>> 32 ≠ 0 then (.error, o)
          else (fmt, o.setI (negated neg ((BitVec.ofNat 64 v).setWidth 32)))
      | fmt => (fmt, negated neg (BitVec.ofNat 64 v))) := by
  have value : (BitVec.ofNat 64 v).toNat = v := by rw [BitVec.toNat_ofNat, Nat.mod_eq_of_lt below]
  have low : (BitVec.ofNat 64 v).setWidth 32 = .ofNat 32 v := BitVec.setWidth_ofNat_of_le (by decide) v
  have within (none : ¬BitVec.ofNat 64 v >>> 32 ≠ 0) : v < 2 ^ 32 := by
    have zero := congrArg BitVec.toNat (not_not.mp none)
    rw [BitVec.toNat_ushiftRight, Nat.shiftRight_eq_div_pow, value] at zero
    change _ = 0 at zero
    omega
  cases fmt with
  | int =>
      dsimp only
      split
      · exact .error o
      · next none =>
          rw [low]
          split
          · exact exact_32 _ o rfl (within none) nofun rfl
          · next small =>
              have less : (BitVec.ofNat 64 v).toNat < (limit neg).toNat := Nat.lt_of_not_le fun more => small ⟨rfl, more⟩
              rw [limit_eq, value] at less
              exact exact_32 _ o rfl (within none) (fun _ => less) rfl
  | u32 =>
      dsimp only
      split
      · exact .error o
      · next none =>
          rw [low, if_neg fun both => nomatch both.1]
          exact exact_32 _ o rfl (within none) nofun rfl
  | i64 => exact exact_64 below rfl
  | u64 => exact exact_64 below rfl
  | error => exact absurd rfl isInteger
  | num => exact absurd rfl isInteger
  | imag => exact absurd rfl isInteger

theorem strscan_oct_scanned (isInteger : fmt.width ≠ none) (inside : ∀ c ∈ digits, lj_char_isdigit c)
    (leading : NoLeadingZero digits) (rest : GCstr) (o : TValue) :
    strscan_oct (digits ++ rest) o fmt neg digits.length = (.error, o) ∨ (∀ c ∈ digits, digitValue c < 8) ∧
      Exact opt fmt neg (valueIn 8 digits) (strscan_oct (digits ++ rest) o fmt neg digits.length) := by
  have scanned : octDigits digits.length 0 (digits ++ rest) =
      if ∀ c ∈ digits, digitValue c < 8 then some (.ofNat 64 (valueIn 8 digits)) else none := by
    rw [valueIn_foldl]
    exact octDigits_eq inside 0 rest
  rw [strscan_oct, scanned]
  by_cases long : digits.length > 22 ∨ digits.length = 22 ∧ peek (digits ++ rest) > '1'.toUInt8
  · rw [if_pos long]
    exact .inl rfl
  rw [if_neg long]
  by_cases small : ∀ c ∈ digits, digitValue c < 8
  · right
    have below : valueIn 8 digits < 2 ^ 64 := by
      have most := valueIn_lt small
      rcases Nat.lt_or_ge digits.length 22 with short | full
      · calc valueIn 8 digits < 8 ^ digits.length := most
          _ ≤ 8 ^ 21 := Nat.pow_le_pow_right (by decide) (by omega)
          _ ≤ 2 ^ 64 := by decide
      · cases digits with
        | nil => cases full
        | cons c digits =>
            have ⟨_, _, _, _, _, _, large, _⟩ := digit_facts c (inside c List.mem_cons_self)
            have bit : ¬1 < digitValue c := fun two => long (.inr ⟨by omega, large.mpr two⟩)
            have others := valueIn_lt (List.forall_mem_cons.mp small).2
            have count : digits.length = 21 := by
              rw [List.length_cons] at full long
              omega
            rw [count] at others
            rw [valueIn_cons, count]
            have first : digitValue c * 8 ^ 21 ≤ 1 * 8 ^ 21 := Nat.mul_le_mul_right _ (by omega)
            omega
    rw [if_pos small]
    exact ⟨small, strscan_oct_exact isInteger below o⟩
  · rw [if_neg small]
    exact .inl rfl

end

end TvmJit.Scan
