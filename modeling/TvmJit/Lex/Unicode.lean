import TvmJit.Lex.Quote
import TvmJit.Lex.Reader

/-! The Unicode escapes of a string literal: the scanner writes them with the encoding
that UTF-8 was before it was cut to four bytes, and `tvm.wchar` with the same bytes. -/

namespace TvmJit

/-! ## Generalised UTF-8 -/

/-- How many continuation bytes a value of up to 31 bits has. -/
def contCount (c : Nat) : Nat :=
  if c < 2 ^ 7 then 0
  else if c < 2 ^ 11 then 1
  else if c < 2 ^ 16 then 2
  else if c < 2 ^ 21 then 3
  else if c < 2 ^ 26 then 4
  else 5

/-- Continuation bytes with the lowest `6 * n` bits of a value. -/
def contBytes (c : Nat) : Nat → List Nat
  | 0 => []
  | n + 1 => (128 + c / 64 ^ n % 64) :: contBytes c n

/-- The first byte: as many ones as there are bytes, a zero and the highest bits. -/
def leadByte (c n : Nat) : Nat := if n = 0 then c else 256 - 2 ^ (7 - n) + c / 64 ^ n

/-- The encoding of a value below 2 ^ 31. -/
def generalUtf8 (c : Nat) : GCstr :=
  (leadByte c (contCount c) :: contBytes c (contCount c)).map UInt8.ofNat

theorem contByte_eq (c n : Nat) : 0x80 ||| (c >>> (6 * n) &&& 0x3f) = 128 + c / 64 ^ n % 64 := by
  have power : 2 ^ (6 * n) = 64 ^ n := Nat.pow_mul 2 6 n
  rw [and_0x3f, Nat.shiftRight_eq_div_pow, power]
  exact or_eq_add 7 (by decide) (Nat.lt_trans (Nat.mod_lt _ (by decide)) (by decide))

/-- The lexer's encoding of an escape. -/
theorem uescapeBytes_eq {c : Nat} (small : c < 2 ^ 31) : Lexer.uescapeBytes c = generalUtf8 c := by
  have cont (n : Nat) := contByte_eq c n
  have lead {n i : Nat} (ones : Nat) (multiple : 2 ^ i ∣ ones) (fits : c / 64 ^ n < 2 ^ i) :
      ones ||| c >>> (6 * n) = ones + c / 64 ^ n := by
    rw [Nat.shiftRight_eq_div_pow, Nat.pow_mul]
    exact or_eq_add i multiple fits
  have last := cont 0
  rw [Nat.mul_zero, Nat.shiftRight_zero] at last
  unfold Lexer.uescapeBytes generalUtf8 contCount
  rw [if_neg (by omega)]
  rcases Nat.lt_or_ge c (2 ^ 7) with one | atLeast2
  · rw [if_neg (by omega), if_neg (by omega), if_neg (by omega), if_neg (by omega), if_neg (by omega),
      if_pos one]
    rfl
  rcases Nat.lt_or_ge c (2 ^ 11) with two | atLeast3
  · rw [if_neg (by omega), if_neg (by omega), if_neg (by omega), if_neg (by omega), if_pos (by omega),
      if_neg (by omega), if_pos two]
    have first := lead (n := 1) (i := 5) 0xC0 (by decide) (by omega)
    rw [first, last]
    rfl
  rcases Nat.lt_or_ge c (2 ^ 16) with three | atLeast4
  · rw [if_neg (by omega), if_neg (by omega), if_neg (by omega), if_pos (by omega), if_neg (by omega),
      if_neg (by omega), if_pos three]
    have first := lead (n := 2) (i := 4) 0xE0 (by decide) (by omega)
    rw [first, cont 1, last]
    rfl
  rcases Nat.lt_or_ge c (2 ^ 21) with four | atLeast5
  · rw [if_neg (by omega), if_neg (by omega), if_pos (by omega), if_neg (by omega), if_neg (by omega),
      if_neg (by omega), if_pos four]
    have first := lead (n := 3) (i := 3) 0xF0 (by decide) (by omega)
    rw [first, cont 2, cont 1, last]
    rfl
  rcases Nat.lt_or_ge c (2 ^ 26) with five | six
  · rw [if_neg (by omega), if_pos (by omega), if_neg (by omega), if_neg (by omega), if_neg (by omega),
      if_neg (by omega), if_pos five]
    have first := lead (n := 4) (i := 2) 0xF8 (by decide) (by omega)
    rw [first, cont 3, cont 2, cont 1, last]
    rfl
  · rw [if_pos (by omega), if_neg (by omega), if_neg (by omega), if_neg (by omega), if_neg (by omega),
      if_neg (by omega)]
    have first := lead (n := 5) (i := 1) 0xFC (by decide) (by omega)
    rw [first, cont 4, cont 3, cont 2, cont 1, last]
    rfl

/-- `tvm.wchar` writes the same bytes for a code point. -/
theorem wcharBytes_eq {k : Nat} (valid : k ≤ 0x10FFFF) : wcharBytes k = generalUtf8 k := by
  rw [← uescapeBytes_eq (by omega), wcharBytes, Lexer.uescapeBytes]
  rw [if_neg (show ¬k ≥ 0x80000000 by omega), if_neg (show ¬k ≥ 0x4000000 by omega),
    if_neg (show ¬k ≥ 0x200000 by omega)]

/-! ## Escapes -/

/-- A Unicode escape: `\u` with four hexadecimal digits or `\U` with eight. -/
structure UniEscape where
  long : Bool
  digits : GCstr
  count : digits.length = if long then 8 else 4
  hexadecimal : ∀ d ∈ digits, ljCharIsxdigit (some d) = true

namespace UniEscape

/-- The characters of the escape. -/
def text (e : UniEscape) : GCstr := ch '\\' :: (if e.long then ch 'U' else ch 'u') :: e.digits

/-- The number the digits denote. -/
def value (e : UniEscape) : Nat := e.digits.foldl (fun value d => value * 16 + P.hexValue d) 0

end UniEscape

namespace Lexer

variable {ls : Lexer}

/-- The bits of a hexadecimal digit that the scanner takes. -/
theorem digit_bits {d : UInt8} (isHex : ljCharIsxdigit (some d) = true) :
    P.hexValue d = if ljCharIsdigit (some d) then (d &&& 15).toNat else (d &&& 15).toNat + 9 := by
  revert isHex
  refine byte_forall d ?_
  decide +kernel

/-- The scanner goes to the last of the digits. -/
theorem hexDigits_eq {digits tail : GCstr} (value : Nat) (bytes : ls.rest.tail = digits ++ tail)
    (isHex : ∀ d ∈ digits, ljCharIsxdigit (some d) = true) :
    ∃ ls', hexDigits digits.length value ls =
        .ok (digits.foldl (fun value d => value * 16 + P.hexValue d) value, ls') ∧
      ls'.rest.tail = tail ∧ ls'.sb = ls.sb := by
  induction digits generalizing ls value with
  | nil => exact ⟨ls, rfl, bytes, rfl⟩
  | cons d digits induction =>
      obtain ⟨isDigit, isHex⟩ := List.forall_mem_cons.mp isHex
      have here : ls.next.rest = d :: (digits ++ tail) := by
        rw [rest_next, bytes]
        rfl
      have isChar := c_of_rest here
      have behind : ls.next.rest.tail = digits ++ tail := by
        rw [here]
        rfl
      obtain ⟨ls', reads, rest, sb⟩ := induction (value * 16 + P.hexValue d) behind isHex
      refine ⟨ls', ?_, rest, sb⟩
      rw [List.length_cons, List.foldl_cons, ← reads, hexDigits, digit_bits isDigit]
      simp only [isChar, Option.getD_some]
      cases decimal : ljCharIsdigit (some d) with
      | true => rfl
      | false =>
          rw [if_neg Bool.false_ne_true, if_pos isDigit]
          rfl

/-- One round of the string loop. -/
structure Reads (ls ls' : Lexer) (bytes tail : GCstr) : Prop where
  rest : ls'.rest = tail
  sb : ls'.sb = ls.sb ++ bytes
  loop : ∀ fuel, stringLoop (fuel + 1) ls = stringLoop fuel ls'

theorem reads_escape (e : UniEscape) {tail : GCstr} (small : e.value < 2 ^ 31)
    (bytes : ls.rest = e.text ++ tail) : ∃ ls', Reads ls ls' (generalUtf8 e.value) tail := by
  have letter : ls.next.rest = (if e.long then ch 'U' else ch 'u') :: (e.digits ++ tail) := by
    rw [rest_next, bytes]
    rfl
  have isLetter := c_of_rest letter
  have behind : ls.next.rest.tail = e.digits ++ tail := by
    rw [letter]
    rfl
  obtain ⟨ls', reads, rest, sb⟩ := hexDigits_eq 0 behind e.hexadecimal
  refine ⟨ls'.escaped (generalUtf8 e.value), ?_, ?_, fun fuel => ?_⟩
  · rw [rest_escaped, rest]
  · change ls'.sb ++ _ = _
    rw [sb]
    rfl
  · apply stringLoop_escape (c_of_rest bytes)
    rw [← uescapeBytes_eq small]
    have digits : hexDigits (if e.long then 8 else 4) 0 ls.next = .ok (e.value, ls') := by
      rw [← e.count]
      exact reads
    cases isLong : e.long with
    | true =>
        rw [isLong, if_pos rfl] at digits isLetter
        simp only [escape, isLetter]
        change (hexDigits 8 0 ls.next >>= _) = _
        rw [digits]
        rfl
    | false =>
        rw [isLong, if_neg Bool.false_ne_true] at digits isLetter
        simp only [escape, isLetter]
        change (hexDigits 4 0 ls.next >>= _) = _
        rw [digits]
        rfl

/-- The escapes are read one after the other, wherever in a literal they stand. -/
theorem stringLoop_escapes (es : List UniEscape) {tail : GCstr}
    (small : ∀ e ∈ es, e.value < 2 ^ 31) (bytes : ls.rest = es.flatMap UniEscape.text ++ tail) :
    ∃ ls', ls'.rest = tail ∧ ls'.sb = ls.sb ++ es.flatMap (fun e => generalUtf8 e.value) ∧
      ∀ fuel, stringLoop (fuel + es.length) ls = stringLoop fuel ls' := by
  induction es generalizing ls with
  | nil => exact ⟨ls, bytes, (List.append_nil _).symm, fun _ => rfl⟩
  | cons e es induction =>
      obtain ⟨smallE, small⟩ := List.forall_mem_cons.mp small
      rw [List.flatMap_cons, List.append_assoc] at bytes
      obtain ⟨ls₁, first⟩ := reads_escape e smallE bytes
      obtain ⟨ls', rest, sb, loop⟩ := induction small first.rest
      refine ⟨ls', rest, ?_, fun fuel => ?_⟩
      · rw [sb, first.sb, List.flatMap_cons, List.append_assoc]
      · rw [List.length_cons, ← Nat.add_assoc, first.loop, loop]

end Lexer

/-- A literal that is nothing but escapes. -/
def escapesLiteral (es : List UniEscape) : GCstr := ch '"' :: es.flatMap UniEscape.text ++ [ch '"']

/-- The bytes its escapes stand for. -/
def escapesBytes (es : List UniEscape) : GCstr := es.flatMap fun e => generalUtf8 e.value

theorem Lexer.ljLexNext_escapes [StrScan] {ls : Lexer} (es : List UniEscape) {more : GCstr} {fuel : Nat}
    (small : ∀ e ∈ es, e.value < 2 ^ 31) (bytes : ls.rest = escapesLiteral es ++ more)
    (enough : es.length < fuel) :
    ∃ ls', ljLexNext fuel ls = .ok (.string (escapesBytes es), ls') ∧ ls'.rest = more := by
  rw [escapesLiteral, List.append_assoc, List.cons_append] at bytes
  apply ljLexNext_string bytes (by omega)
  intro ls₁ opened _
  obtain ⟨ls₂, rest, sb, loop⟩ := stringLoop_escapes es small opened
  obtain ⟨fuel, rfl⟩ : ∃ n, fuel = n + 1 + es.length := ⟨fuel - es.length - 1, by omega⟩
  refine ⟨ls₂, ?_, rest, sb⟩
  rw [loop, stringLoop, if_pos (c_of_rest rest)]

/-- The escapes of code points are those of `tvm.wchar`. -/
theorem escapesBytes_eq (es : List UniEscape) (valid : ∀ e ∈ es, e.value ≤ 0x10FFFF) :
    ∃ ks : List CodePoint, ks.map Subtype.val = es.map UniEscape.value ∧ escapesBytes es = encode ks := by
  induction es with
  | nil => exact ⟨[], rfl, rfl⟩
  | cons e es induction =>
      obtain ⟨validE, valid⟩ := List.forall_mem_cons.mp valid
      obtain ⟨ks, values, bytes⟩ := induction valid
      refine ⟨⟨e.value, validE⟩ :: ks, ?_, ?_⟩
      · rw [List.map_cons, List.map_cons, values]
      · rw [encode_cons, ← bytes, wcharBytes_eq validE]
        rfl

/-- Unicode escapes of values below 2 ^ 31 are read as their encodings, wherever in a
literal they stand. Where they are code points the string is `tvm.wchar` of these, and
`utf8.codepoint` gives them back as long as the stack has a slot for every byte. -/
theorem unicode_escapes_agree [StrScan] (es : List UniEscape) :
    ((∀ e ∈ es, e.value < 2 ^ 31) →
      (∀ (ls : Lexer) (tail : GCstr), ls.rest = es.flatMap UniEscape.text ++ tail →
        ∃ ls' : Lexer, ls'.rest = tail ∧ ls'.sb = ls.sb ++ escapesBytes es ∧
          ∀ fuel, ls.stringLoop (fuel + es.length) = ls'.stringLoop fuel) ∧
      ∀ (ls : Lexer) (more : GCstr) (fuel : Nat), ls.rest = escapesLiteral es ++ more →
        es.length < fuel →
          ∃ ls', ls.ljLexNext fuel = .ok (.string (escapesBytes es), ls') ∧ ls'.rest = more) ∧
    ((∀ e ∈ es, e.value ≤ 0x10FFFF) →
      tvmWchar (es.map fun e => (e.value : Int)) = .ok (escapesBytes es) ∧
      if (escapesBytes es).length + 3 ≤ 8000 then
        utf8Codepoint 3 (escapesBytes es) (some 1) (some (-1)) = .ok (es.map UniEscape.value)
      else ∃ msg, utf8Codepoint 3 (escapesBytes es) (some 1) (some (-1)) = .error (.msg msg)) := by
  refine ⟨fun small => ⟨?_, ?_⟩, fun valid => ?_⟩
  · exact fun ls tail bytes => Lexer.stringLoop_escapes es small bytes
  · exact fun ls more fuel bytes enough => Lexer.ljLexNext_escapes es small bytes enough
  · obtain ⟨ks, values, bytes⟩ := escapesBytes_eq es valid
    have ints : es.map (fun e => (e.value : Int)) = ks.map fun k => (k.val : Int) := by
      have casts := congrArg (List.map Nat.cast : List Nat → List Int) values
      rw [List.map_map, List.map_map] at casts
      exact casts.symm
    rw [ints, bytes, ← values]
    exact ⟨tvmWchar_codePoints ks, utf8Codepoint_all ks⟩

/-- The escape `\u0041`. -/
def letterA : UniEscape := ⟨false, [ch '0', ch '0', ch '4', ch '1'], rfl, by decide +kernel⟩

/-- A literal of 8000 escapes is a string that `utf8.codepoint` has no stack for. -/
theorem unicode_codepoint_overflows :
    ¬∀ (_ : StrScan) (es : List UniEscape), (∀ e ∈ es, e.value ≤ 0x10FFFF) →
      ∀ (ls ls' : Lexer) (fuel : Nat) (s : GCstr), ls.rest = escapesLiteral es →
        Lexer.ljLexNext fuel ls = .ok (.string s, ls') →
        utf8Codepoint 3 s (some 1) (some (-1)) = .ok (es.map UniEscape.value) := by
  intro claim
  let noNumbers : StrScan := ⟨fun _ => .error⟩
  let es := List.replicate 8000 letterA
  have value : letterA.value = 65 := by decide
  have isA : ∀ e ∈ es, e.value = 65 := by
    intro e member
    rw [List.eq_of_mem_replicate member, value]
  have length : (escapesBytes es).length = 8000 := by
    have one : (generalUtf8 letterA.value).length = 1 := by
      rw [value]
      rfl
    rw [escapesBytes, List.length_flatMap, List.map_replicate, List.sum_replicate_nat, one]
  let ls : Lexer := { input := .char (ch '"') (es.flatMap UniEscape.text ++ [ch '"']) [] }
  have bytes : ls.rest = escapesLiteral es ++ [] := rfl
  obtain ⟨ls', read, -⟩ := @Lexer.ljLexNext_escapes noNumbers ls es [] (es.length + 1)
    (fun e member => by rw [isA e member]; decide) bytes (Nat.lt_succ_self _)
  rw [List.append_nil] at bytes
  have valid : ∀ e ∈ es, e.value ≤ 0x10FFFF := fun e member => by
    rw [isA e member]
    decide
  have decoded := claim noNumbers es valid ls ls' _ _ bytes read
  obtain ⟨ks, -, isEncoded⟩ := escapesBytes_eq es valid
  have overflow := utf8Codepoint_all ks
  rw [← isEncoded, if_neg (by omega)] at overflow
  obtain ⟨msg, fails⟩ := overflow
  rw [fails] at decoded
  cases decoded

end TvmJit
