import TvmJit.Scan.Based
import Mathlib.Data.List.ModifyLast

/-! The parser for decimal numbers, whose digits are in base 100. -/

namespace TvmJit.Scan

open Foundation

/-! ## Digits in base 100 -/

/-- Digits two by two. -/
def pairUp : GCstr → GCstr
  | c :: c' :: digits => (10 * (c &&& 15) + (c' &&& 15)) :: pairUp digits
  | _ => []

/-- Digits in base 100, the first of which may have one digit. -/
def grouped (digits : GCstr) : GCstr :=
  if digits.length % 2 = 0 then pairUp digits else (digits.headD 0 &&& 15) :: pairUp digits.tail

theorem pair_toNat {c c' : UInt8} (isDigit : lj_char_isdigit c) (isDigit' : lj_char_isdigit c') :
    (10 * (c &&& 15) + (c' &&& 15)).toNat = digitValue c * 10 + digitValue c' := by
  have ⟨small, value, _⟩ := digit_facts c isDigit
  have ⟨small', value', _⟩ := digit_facts c' isDigit'
  have ten : (10 : UInt8).toNat = 10 := rfl
  rw [UInt8.toNat_add, UInt8.toNat_mul, ten, value, value']
  omega

theorem even_tail {c c' : UInt8} {digits : GCstr} (even : (c :: c' :: digits).length % 2 = 0) :
    digits.length % 2 = 0 := by
  rw [List.length_cons, List.length_cons] at even
  omega

theorem doubleDigits_eq (rest : GCstr) : ∀ digits : GCstr, (∀ c ∈ digits, lj_char_isdigit c) → digits.length % 2 = 0 →
    doubleDigits digits.length (digits ++ rest) = (pairUp digits, 0, rest)
  | [], _, _ => rfl
  | [c], _, even => nomatch even
  | c :: c' :: digits, inside, even => by
      have ⟨isDigit, inside⟩ := List.forall_mem_cons.mp inside
      have ⟨isDigit', inside⟩ := List.forall_mem_cons.mp inside
      have noPoint := (xdigit_facts c (isxdigit_of_isdigit isDigit)).1
      have noPoint' := (xdigit_facts c' (isxdigit_of_isdigit isDigit')).1
      rw [List.length_cons, List.length_cons, List.cons_append, List.cons_append, doubleDigits, next_digit noPoint]
      dsimp only
      rw [next_digit noPoint']
      dsimp only
      rw [doubleDigits_eq rest digits inside (even_tail even)]
      rfl

theorem length_doubleDigits : ∀ (i : Nat) (p : GCstr),
    (doubleDigits i p).1.length = i / 2 ∧ (doubleDigits i p).2.1 = i % 2
  | 0, _ => ⟨rfl, rfl⟩
  | 1, _ => ⟨rfl, rfl⟩
  | i + 2, p => by
      have ⟨length, left⟩ := length_doubleDigits i (next (next p).2).2
      constructor
      · change (doubleDigits i (next (next p).2).2).1.length + 1 = _
        omega
      · change (doubleDigits i (next (next p).2).2).2.1 = _
        omega

theorem length_pairUp : ∀ digits : GCstr, (pairUp digits).length = digits.length / 2
  | [] => rfl
  | [c] => by simp [pairUp]
  | c :: c' :: digits => by
      rw [pairUp, List.length_cons, List.length_cons, List.length_cons, length_pairUp digits]
      omega

theorem numeral_pairUp : ∀ digits : GCstr, (∀ c ∈ digits, lj_char_isdigit c) → digits.length % 2 = 0 →
    numeral 100 ((pairUp digits).map UInt8.toNat) = valueIn 10 digits
  | [], _, _ => rfl
  | [c], _, even => nomatch even
  | c :: c' :: digits, inside, even => by
      have ⟨isDigit, inside⟩ := List.forall_mem_cons.mp inside
      have ⟨isDigit', inside⟩ := List.forall_mem_cons.mp inside
      have even := even_tail even
      have power : 100 ^ (digits.length / 2) = 10 ^ digits.length := by
        have twice : 2 * (digits.length / 2) = digits.length := by omega
        calc 100 ^ (digits.length / 2) = (10 ^ 2) ^ (digits.length / 2) := rfl
          _ = 10 ^ digits.length := by rw [← Nat.pow_mul, twice]
      rw [pairUp, List.map_cons, numeral_cons, numeral_pairUp digits inside even, List.length_map, length_pairUp,
        pair_toNat isDigit isDigit', power, valueIn_cons, valueIn_cons, List.length_cons]
      ring

section

variable {digits : GCstr}

theorem length_grouped (digits : GCstr) (some : digits ≠ []) : (grouped digits).length = (digits.length + 1) / 2 := by
  rw [grouped]
  split
  · rw [length_pairUp]
    omega
  · have pos : 0 < digits.length := List.length_pos_iff.mpr some
    rw [List.length_cons, length_pairUp, List.length_tail]
    omega

theorem numeral_grouped (inside : ∀ c ∈ digits, lj_char_isdigit c) (some : digits ≠ []) :
    numeral 100 ((grouped digits).map UInt8.toNat) = valueIn 10 digits := by
  rw [grouped]
  split
  · next even => exact numeral_pairUp digits inside even
  · next odd =>
      cases digits with
      | nil => exact absurd rfl some
      | cons c digits =>
          have ⟨isDigit, inside⟩ := List.forall_mem_cons.mp inside
          have ⟨_, value, _⟩ := digit_facts c isDigit
          have even : digits.length % 2 = 0 := by
            rw [List.length_cons] at odd
            omega
          have power : 100 ^ (digits.length / 2) = 10 ^ digits.length := by
            have twice : 2 * (digits.length / 2) = digits.length := by omega
            calc 100 ^ (digits.length / 2) = (10 ^ 2) ^ (digits.length / 2) := rfl
              _ = 10 ^ digits.length := by rw [← Nat.pow_mul, twice]
          rw [List.headD_cons, List.tail_cons, List.map_cons, numeral_cons, numeral_pairUp digits inside even,
            List.length_map, length_pairUp, value, power, valueIn_cons]

theorem digit_pos {c : UInt8} (isDigit : lj_char_isdigit c) (some : c ≠ '0'.toUInt8) : digitValue c ≠ 0 :=
  fun zero => some ((xdigit_facts c (isxdigit_of_isdigit isDigit)).2.2.1 zero)

theorem headD_grouped (inside : ∀ c ∈ digits, lj_char_isdigit c) (leading : NoLeadingZero digits) (some : digits ≠ []) :
    (grouped digits).headD 0 ≠ 0 := by
  match digits with
  | [] => exact absurd rfl some
  | [c] =>
      have isDigit := inside c List.mem_cons_self
      have notZero : c ≠ '0'.toUInt8 := fun zero => leading (congrArg Option.some zero)
      intro zero
      have value := congrArg UInt8.toNat zero
      change (c &&& 15).toNat = 0 at value
      rw [(digit_facts c isDigit).2.1] at value
      exact digit_pos isDigit notZero value
  | c :: c' :: digits =>
      have ⟨isDigit, inside⟩ := List.forall_mem_cons.mp inside
      have ⟨isDigit', _⟩ := List.forall_mem_cons.mp inside
      have notZero : c ≠ '0'.toUInt8 := fun zero => leading (congrArg Option.some zero)
      have pos := digit_pos isDigit notZero
      intro zero
      have value := congrArg UInt8.toNat zero
      rw [grouped] at value
      split at value
      · rw [pairUp, List.headD_cons, pair_toNat isDigit isDigit'] at value
        change _ = 0 at value
        omega
      · change (c &&& 15).toNat = 0 at value
        rw [(digit_facts c isDigit).2.1] at value
        exact pos value

theorem pairUp_lt : ∀ digits : GCstr, (∀ c ∈ digits, lj_char_isdigit c) → ∀ d ∈ pairUp digits, d.toNat < 100
  | [], _ => nofun
  | [c], _ => by
      rw [pairUp]
      · nofun
      · nofun
  | c :: c' :: digits, inside => by
      have ⟨isDigit, inside⟩ := List.forall_mem_cons.mp inside
      have ⟨isDigit', inside⟩ := List.forall_mem_cons.mp inside
      have small := (digit_facts c isDigit).1
      have small' := (digit_facts c' isDigit').1
      rw [pairUp, List.forall_mem_cons]
      refine ⟨?_, pairUp_lt digits inside⟩
      rw [pair_toNat isDigit isDigit']
      omega

/-- Twenty digits by the first two of them. -/
theorem twenty_bounds (inside : ∀ c ∈ digits, lj_char_isdigit c) (twenty : digits.length = 20) :
    ((grouped digits).headD 0).toNat * 100 ^ 9 ≤ valueIn 10 digits ∧
      valueIn 10 digits < (((grouped digits).headD 0).toNat + 1) * 100 ^ 9 := by
  have some : digits ≠ [] := by
    rintro rfl
    cases twenty
  have even : digits.length % 2 = 0 := by omega
  have same : grouped digits = pairUp digits := if_pos even
  have length := length_grouped digits some
  have small := pairUp_lt digits inside
  rw [← numeral_grouped inside some, same]
  rw [same] at length
  cases isPairs : pairUp digits with
  | nil =>
      rw [isPairs, twenty] at length
      cases length
  | cons d xi =>
      rw [isPairs, twenty, List.length_cons] at length
      rw [isPairs] at small
      have values : ∀ n ∈ xi.map UInt8.toNat, n < 100 := by
        intro n member
        have ⟨d', inside, value⟩ := List.mem_map.mp member
        exact value ▸ small d' (List.mem_cons_of_mem _ inside)
      have below := numeral_lt values
      have nine : (xi.map UInt8.toNat).length = 9 := by
        rw [List.length_map]
        omega
      rw [List.map_cons, numeral_cons, nine, List.headD_cons, Nat.add_mul]
      rw [nine] at below
      omega

end

/-! ## The buffer -/

theorem foldl_word (xi : GCstr) (m : Nat) :
    xi.foldl (fun x d => x * 100 + d.toBitVec.setWidth 64) (BitVec.ofNat 64 m) =
      BitVec.ofNat 64 ((xi.map UInt8.toNat).foldl (fun n d => n * 100 + d) m) := by
  induction xi generalizing m with
  | nil => rfl
  | cons d xi induction =>
      have digit : d.toBitVec.setWidth 64 = BitVec.ofNat 64 d.toNat := by
        apply BitVec.eq_of_toNat_eq
        rw [BitVec.toNat_setWidth, BitVec.toNat_ofNat, UInt8.toNat_toBitVec]
      have step : BitVec.ofNat 64 m * 100 + BitVec.ofNat 64 d.toNat = BitVec.ofNat 64 (m * 100 + d.toNat) := by
        rw [BitVec.ofNat_add, BitVec.ofNat_mul]
        rfl
      rw [List.foldl_cons, digit, step, induction]
      rfl

/-- Digits in base 100 that are put into a word one after another. -/
theorem word_eq (xi : GCstr) (some : xi ≠ []) :
    xi.tail.foldl (fun x d => x * 100 + d.toBitVec.setWidth 64) ((xi.headD 0).toBitVec.setWidth 64) =
      BitVec.ofNat 64 (numeral 100 (xi.map UInt8.toNat)) := by
  cases xi with
  | nil => exact absurd rfl some
  | cons d xi =>
      have whole := foldl_word (d :: xi) 0
      have first : BitVec.ofNat 64 0 * 100 + d.toBitVec.setWidth 64 = d.toBitVec.setWidth 64 := by
        rw [BitVec.ofNat_eq_ofNat, BitVec.zero_mul, BitVec.zero_add]
      rw [List.foldl_cons, first] at whole
      exact whole

theorem simplifyExponent_zero (xi : GCstr) (dig : Nat) : simplifyExponent xi 0 dig = (xi, 0, dig) := by
  rw [simplifyExponent, if_neg fun both => absurd both.1 (by decide)]

theorem decDigits_eq {digits : GCstr} (inside : ∀ c ∈ digits, lj_char_isdigit c) (some : digits ≠ [])
    (few : digits.length ≤ 800) (rest : GCstr) :
    decDigits (digits ++ rest) 0 digits.length = (grouped digits, 0, digits.length) := by
  have notZero : digits.length ≠ 0 := fun zero => some (List.eq_nil_of_length_eq_zero zero)
  have notMany : ¬digits.length > STRSCAN_MAXDIG := Nat.not_lt_of_le few
  have none : ¬(0 : Nat) ≠ 0 := fun some => some rfl
  rw [decDigits, if_neg notZero, if_neg notMany]
  dsimp only
  rcases Nat.mod_two_eq_zero_or_one digits.length with even | odd
  · have aligned : ¬(0 + digits.length : Int) % 2 ≠ 0 := by omega
    rw [if_neg aligned]
    dsimp only
    rw [doubleDigits_eq rest digits inside even]
    simp only [if_neg none]
    rw [if_neg notMany, simplifyExponent_zero, grouped, if_pos even]
    simp
  · have unaligned : (0 + digits.length : Int) % 2 ≠ 0 := by omega
    rw [if_pos unaligned]
    cases digits with
    | nil => exact absurd rfl some
    | cons c digits =>
        have ⟨isDigit, inside⟩ := List.forall_mem_cons.mp inside
        have noPoint := (xdigit_facts c (isxdigit_of_isdigit isDigit)).1
        have even : digits.length % 2 = 0 := by
          rw [List.length_cons] at odd
          omega
        have pairs := doubleDigits_eq rest digits inside even
        rw [List.cons_append, next_digit noPoint]
        dsimp only
        rw [List.length_cons, Nat.add_sub_cancel, pairs]
        have few' : ¬digits.length + 1 > STRSCAN_MAXDIG := notMany
        simp only [if_neg none]
        rw [if_neg few', simplifyExponent_zero, grouped, if_neg (by omega)]
        simp

theorem length_modifyLast (f : UInt8 → UInt8) (xi : GCstr) : (xi.modifyLast f).length = xi.length := by
  rcases List.eq_nil_or_concat xi with rfl | ⟨front, d, rfl⟩
  · rfl
  · rw [List.concat_eq_append, List.modifyLast_concat, List.length_append, List.length_append]
    rfl

/-- More digits than the buffer has room for. -/
theorem decDigits_long {dig : Nat} (p : GCstr) (long : 800 < dig) :
    ∃ xi ex10, decDigits p 0 dig = (xi, ex10, STRSCAN_MAXDIG) ∧ 400 ≤ xi.length ∧ 0 ≤ ex10 := by
  have notZero : dig ≠ 0 := by omega
  have many : dig > STRSCAN_MAXDIG := long
  have isMax : STRSCAN_MAXDIG = 800 := rfl
  have summarized (excess : Bool) (xi : GCstr) : (if excess then xi.modifyLast (· ||| 1) else xi).length = xi.length := by
    split
    · exact length_modifyLast ..
    · rfl
  rw [decDigits, if_neg notZero, if_pos many]
  generalize STRSCAN_MAXDIG = max at many isMax ⊢
  dsimp only
  by_cases odd : (0 + ((dig - max : Nat) : Int) + (max : Nat)) % 2 ≠ 0
  · rw [if_pos odd]
    dsimp only
    have ⟨length, left⟩ := length_doubleDigits (max - 1) (next p).2
    generalize doubleDigits (max - 1) (next p).2 = pairs at length left
    have one : pairs.2.1 ≠ 0 := by omega
    have more : dig + 1 > max := by omega
    simp only [if_pos one]
    rw [if_pos more]
    refine ⟨_, _, rfl, ?_, by omega⟩
    rw [summarized, List.length_append, List.length_append, length, List.length_singleton, List.length_singleton]
    omega
  · rw [if_neg odd]
    dsimp only
    have ⟨length, left⟩ := length_doubleDigits max p
    generalize doubleDigits max p = pairs at length left
    have none : ¬pairs.2.1 ≠ 0 := by omega
    simp only [if_neg none]
    rw [if_pos many]
    refine ⟨_, _, rfl, ?_, by omega⟩
    rw [summarized, List.length_append, List.length_append, length]
    omega

/-! ## The parser -/

section

variable {opt : Options} {fmt : StrScanFmt} {neg : Bool} {digits : GCstr}

/-- The slow path converts to a double, or refuses an integer format. -/
theorem slowFormat_scanned {v : Nat} {n : Num} (isInteger : fmt.width ≠ none) (isDouble : IsDouble neg v n)
    (o : TValue) : Scanned opt fmt neg v (slowFormat o opt n fmt) := by
  cases fmt with
  | int =>
      rw [slowFormat]
      split
      · exact .error o
      · next plain => exact .num (Bool.eq_false_iff.mpr plain) isDouble
  | u32 => exact .error o
  | i64 => exact .error o
  | u64 => exact .error o
  | error => exact absurd rfl isInteger
  | num => exact absurd rfl isInteger
  | imag => exact absurd rfl isInteger

/-- The fast path: an integer format, or a double that is plain below 2^63. -/
theorem fast_scanned {v : Nat} {n : Num} (isInteger : fmt.width ≠ none) (below : v < 2 ^ 64)
    (isDouble : 2 ^ 63 ≤ v → IsDouble neg v n) (o : TValue) :
    Scanned opt fmt neg v ((formatInteger opt fmt neg (BitVec.ofNat 64 v >>> 32 = 0) true (.ofNat 64 v) o).elim id fun fmt =>
      if (BitVec.ofNat 64 v).toInt < 0 then slowFormat o opt n fmt else (fmt, toDouble (.ofNat 64 v) neg)) := by
  have value : (BitVec.ofNat 64 v).toNat = v := by rw [BitVec.toNat_ofNat, Nat.mod_eq_of_lt below]
  have fits : BitVec.ofNat 64 v >>> 32 = 0 ↔ v < 2 ^ 32 := by
    rw [← BitVec.toNat_inj, BitVec.toNat_ushiftRight, Nat.shiftRight_eq_div_pow, value]
    change v / 2 ^ 32 = 0 ↔ _
    omega
  have is32 : decide (BitVec.ofNat 64 v >>> 32 = 0) = decide (v < 2 ^ 32) := decide_eq_decide.mpr fits
  have formatted : (formatInteger opt fmt neg (BitVec.ofNat 64 v >>> 32 = 0) true (.ofNat 64 v) o).elim
      (Scanned opt fmt neg v) fun fmt' => fmt' = .num ∧ fmt = .int ∧ opt.has STRSCAN_OPT_C = false :=
    formatInteger_exact isInteger (fun _ => rfl) (fun beyond => absurd below (Nat.not_lt_of_le beyond)) is32
      (.inr ⟨rfl, below⟩)
  generalize formatInteger opt fmt neg (BitVec.ofNat 64 v >>> 32 = 0) true (.ofNat 64 v) o = result at formatted ⊢
  cases result with
  | inl r => exact formatted
  | inr fmt' =>
      have ⟨isNum, isInt, plain⟩ := formatted
      subst isNum isInt
      have sign := BitVec.toInt_eq_toNat_cond (BitVec.ofNat 64 v)
      rw [value] at sign
      change Scanned opt .int neg v (if _ then (.num, n) else (.num, toDouble (.ofNat 64 v) neg))
      split at sign
      · rw [if_neg (by omega)]
        have double := isDouble_toDouble (x := .ofNat 64 v) (by omega) neg
        rw [value] at double
        exact .num plain double
      · rw [if_pos (by omega)]
        exact .num plain (isDouble (by omega))

/-- The fast path takes numbers of less than 64 bits only. -/
theorem fast_lt {x : BitVec 64} (inside : ∀ c ∈ digits, lj_char_isdigit c) (few : digits.length ≤ 20) (isWord : x = .ofNat 64 (valueIn 10 digits))
    (fast : ¬(digits.length = 20 ∧ ((grouped digits).headD 0 > 18 ∨ x.toInt ≥ 0))) : valueIn 10 digits < 2 ^ 64 := by
  rcases Nat.lt_or_eq_of_le few with short | twenty
  · have small (c : UInt8) (member : c ∈ digits) : digitValue c < 10 := (digit_facts c (inside c member)).1
    calc valueIn 10 digits < 10 ^ digits.length := valueIn_lt small
      _ ≤ 10 ^ 19 := Nat.pow_le_pow_right (by decide) (by omega)
      _ ≤ 2 ^ 64 := by decide
  · have ⟨_, upper⟩ := twenty_bounds inside twenty
    have first : ¬(grouped digits).headD 0 > 18 := fun large => fast ⟨twenty, .inl large⟩
    have negative : ¬x.toInt ≥ 0 := fun positive => fast ⟨twenty, .inr positive⟩
    have value := BitVec.toInt_eq_toNat_cond x
    have below : ((grouped digits).headD 0).toNat ≤ 18 := Nat.le_of_not_lt first
    have most : (((grouped digits).headD 0).toNat + 1) * 100 ^ 9 ≤ 19 * 100 ^ 9 := Nat.mul_le_mul_right _ (by omega)
    have isValue : x.toNat = valueIn 10 digits % 2 ^ 64 := by rw [isWord, BitVec.toNat_ofNat]
    split at value <;> omega

theorem strscan_dec_scanned (isInteger : fmt.width ≠ none) (inside : ∀ c ∈ digits, lj_char_isdigit c)
    (leading : NoLeadingZero digits) (rest : GCstr) (o : TValue) :
    Scanned opt fmt neg (valueIn 10 digits) (strscan_dec (digits ++ rest) o fmt opt 0 neg digits.length) := by
  rcases Nat.lt_or_ge 800 digits.length with long | short
  · have ⟨xi, ex10, isDigits, length, up⟩ := decDigits_long (digits ++ rest) long
    have slow : ¬(STRSCAN_MAXDIG ≤ 20 ∧ ex10 = 0) := fun both => absurd both.1 (by decide)
    rw [strscan_dec, isDigits]
    dsimp only
    rw [if_neg slow]
    exact slowFormat_scanned isInteger (.inr (slowPath_infinite neg (Nat.lt_of_lt_of_le (by decide) length) up)) o
  by_cases none : digits = []
  · subst none
    have isDigits : decDigits ([] ++ rest) 0 0 = ([0], 0, 0) := rfl
    rw [List.length_nil, strscan_dec, isDigits]
    dsimp only
    rw [if_pos ⟨by decide, rfl⟩, if_pos fun both => absurd both.1 (by decide)]
    exact fast_scanned isInteger (by decide) (fun beyond => absurd beyond (by decide)) o
  · have isDigits := decDigits_eq inside none short rest
    have length := length_grouped digits none
    have first := headD_grouped inside leading none
    have some : grouped digits ≠ [] := by
      intro empty
      rw [empty] at first
      exact first rfl
    have isWord := word_eq (grouped digits) some
    rw [numeral_grouped inside none] at isWord
    have large (long : 19 ≤ digits.length) : IsDouble neg (valueIn 10 digits) (slowPath (grouped digits) 0 neg) :=
      .inr (slowPath_large neg first (by omega))
    rw [strscan_dec, isDigits]
    dsimp only
    rw [isWord]
    by_cases few : digits.length ≤ 20 ∧ (0 : Int) = 0
    · rw [if_pos few]
      by_cases fast : ¬(digits.length = 20 ∧
          ((grouped digits).headD 0 > 18 ∨ (BitVec.ofNat 64 (valueIn 10 digits)).toInt ≥ 0))
      · rw [if_pos fast]
        apply fast_scanned isInteger (fast_lt inside few.1 rfl fast)
        intro beyond
        apply large
        by_contra shorter
        have small (c : UInt8) (member : c ∈ digits) : digitValue c < 10 := (digit_facts c (inside c member)).1
        have most := valueIn_lt small
        have power : 10 ^ digits.length ≤ 10 ^ 18 := Nat.pow_le_pow_right (by decide) (by omega)
        omega
      · rw [if_neg fast]
        have twenty : digits.length = 20 := (not_not.mp fast).1
        exact slowFormat_scanned isInteger (large (by omega)) o
    · rw [if_neg few]
      exact slowFormat_scanned isInteger (large (by omega)) o

end

end TvmJit.Scan
