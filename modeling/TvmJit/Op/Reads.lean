import TvmJit.Lex.Tokens
import TvmJit.Op.Tree

/-! What `P:next` reads from the text of one token that `tostring` writes. -/

namespace TvmJit

open Lexer

/-- The bytes behind what is written for a name, a number or a string. -/
def isDelimiter (b : UInt8) : Bool := b == ch ' ' || b == ch ')' || b == ch ':'

/-- A fact about the delimiters, checked one by one. -/
@[elab_as_elim] theorem delimiter_forall {motive : UInt8 → Prop} {d : UInt8}
    (delimiter : isDelimiter d = true)
    (each : ∀ i : Fin 3, motive [ch ' ', ch ')', ch ':'][i]) : motive d := by
  simp only [isDelimiter, Bool.or_eq_true, beq_iff_eq] at delimiter
  rcases delimiter with (rfl | rfl) | rfl
  · exact each 0
  · exact each 1
  · exact each 2

namespace P

variable {steps fuel : Nat} {p : P}

theorem current_of {b : UInt8} {rest : GCstr} (bytes : p.z = b :: rest) : p.current = some b := by
  rw [current, bytes]
  rfl

theorem next_of {b : UInt8} {rest : GCstr} (bytes : p.z = b :: rest) : p.next_.z = rest := by
  change p.z.tail = rest
  rw [bytes, List.tail_cons]

theorem nameLoop_plain {s tail : GCstr} {d : UInt8} (isEnd : endsName (some d) = true)
    (plain : ∀ b ∈ s, endsName (some b) = false ∧ b ≠ ch '\\') (bytes : p.z = s ++ d :: tail)
    (enough : s.length < fuel) :
    ∃ q, p.nameLoop fuel = .ok q ∧ q.z = d :: tail ∧ q.buff = p.buff ++ s := by
  induction s generalizing p fuel with
  | nil =>
      obtain ⟨fuel, rfl⟩ : ∃ n, fuel = n + 1 := ⟨fuel - 1, by omega⟩
      refine ⟨p, ?_, bytes, (List.append_nil _).symm⟩
      rw [nameLoop, current_of bytes, find_notName, if_pos isEnd]
  | cons b s induction =>
      rw [List.length_cons] at enough
      obtain ⟨fuel, rfl⟩ : ∃ n, fuel = n + 1 := ⟨fuel - 1, by omega⟩
      obtain ⟨notEnd, notEscape⟩ := plain b List.mem_cons_self
      have isChar := current_of bytes
      have after : p.saveAndNext.z = s ++ d :: tail := next_of bytes
      have saved : p.saveAndNext.buff = p.buff ++ [b] := by
        rw [saveAndNext, isChar]
        rfl
      have shorter : s.length < fuel := by omega
      obtain ⟨q, run, left, buff⟩ := induction (fun c member =>
        plain c (List.mem_cons_of_mem b member)) after shorter
      refine ⟨q, ?_, left, ?_⟩
      · rw [nameLoop, isChar, find_notName, if_neg (by simp [notEnd]),
          if_neg fun same => notEscape (Option.some.inj same)]
        exact run
      · rw [buff, saved, List.append_assoc, List.singleton_append]

/-! ## Numbers -/

/-- A numeral ends at the delimiter behind it. -/
theorem numeralText_delimited {hex afterExpo : Bool} {text tail : GCstr} {d : UInt8}
    (delimiter : isDelimiter d = true) (whole : numeralText hex afterExpo text = (text, [])) :
    numeralText hex afterExpo (text ++ d :: tail) = (text, d :: tail) := by
  have stops : find (expoSet true) (some d) = false ∧ find (expoSet false) (some d) = false ∧
      find TvmJit.sign (some d) = false ∧ find xdigit (some d) = false ∧ d ≠ ch '.' :=
    delimiter_forall delimiter (by decide +kernel)
  obtain ⟨notHexExpo, notExpo, notSign, notDigit, notDot⟩ := stops
  induction text generalizing afterExpo with
  | nil =>
      rw [List.nil_append, numeralText]
      have notExpo : find (expoSet hex) (some d) = false := by cases hex <;> assumption
      simp [notExpo, notSign, notDigit, notDot]
  | cons b text induction =>
      rw [numeralText] at whole
      rw [List.cons_append, numeralText]
      split at whole
      · next isExpo =>
          have rest : numeralText hex true text = (text, []) := by
            simpa [Prod.ext_iff] using whole
          rw [if_pos isExpo, induction rest]
      · next notExpo =>
          split at whole
          · next more =>
              have rest : numeralText hex false text = (text, []) := by
                simpa [Prod.ext_iff] using whole
              rw [if_neg notExpo, if_pos more, induction rest]
          · simp at whole

/-- The bytes are one numeral behind the sign there may be. -/
def wholeNumeral (text : GCstr) : Bool :=
  startsNumber text.head? &&
    match unsigned text with
    | [] => false
    | b :: rest => startsNumeral b && bodyText b rest == (b :: rest, [])

theorem bodyText_delimited {b d : UInt8} {rest tail : GCstr} (delimiter : isDelimiter d = true)
    (whole : bodyText b rest = (b :: rest, [])) :
    bodyText b (rest ++ d :: tail) = (b :: rest, d :: tail) := by
  have decimal (rest : GCstr) (whole : numeralText false false rest = (rest, [])) :
      (b :: (numeralText false false (rest ++ d :: tail)).1,
        (numeralText false false (rest ++ d :: tail)).2) = (b :: rest, d :: tail) := by
    rw [numeralText_delimited delimiter whole]
  cases rest with
  | nil =>
      have notX : (d ||| 0x20) ≠ ch 'x' := delimiter_forall delimiter (by decide)
      rw [List.nil_append, bodyText, if_neg fun both => notX both.2]
      exact decimal [] rfl
  | cons x rest =>
      rw [bodyText] at whole
      rw [List.cons_append, bodyText]
      split at whole
      · next isHex =>
          have digits : numeralText true false rest = (rest, []) := by
            simpa [Prod.ext_iff] using whole
          rw [if_pos isHex, numeralText_delimited delimiter digits]
      · next notHex =>
          have digits : numeralText false false (x :: rest) = (x :: rest, []) := by
            simpa [Prod.ext_iff] using whole
          rw [if_neg notHex]
          exact decimal (x :: rest) digits

/-! ## Strings -/

/-- The loop of `P:_read_string` over the bytes written for one byte. -/
structure ReadsByte (p p' : P) (c : UInt8) (tail : GCstr) : Prop where
  z : p'.z = tail
  buff : p'.buff = p.buff ++ [c]
  loop : ∀ fuel, p.stringLoop (fuel + 1) = p'.stringLoop fuel

theorem stringLoop_escape {p' : P} (isEscape : p.current = some (ch '\\'))
    (read : p.next_.escape = .ok p') : p.stringLoop (fuel + 1) = p'.stringLoop fuel := by
  rw [stringLoop, isEscape, if_neg (by decide), if_neg (by decide), if_pos rfl, read]
  rfl

/-- A quotation mark or a backslash, written as a pair. -/
theorem readsByte_pair {c : UInt8} {tail : GCstr} (isPair : c = ch '"' ∨ c = ch '\\')
    (bytes : p.z = ch '\\' :: c :: tail) : ReadsByte p (p.next_.next_.save [c]) c tail where
  z := next_of (next_of bytes)
  buff := rfl
  loop fuel := by
    have second := current_of (next_of bytes)
    apply stringLoop_escape (current_of bytes)
    rcases isPair with rfl | rfl
    · rw [escape, second]
      rfl
    · rw [escape, second]
      rfl

/-- A line break, written as it is. -/
theorem readsByte_newline {tail : GCstr} (bytes : p.z = ch '\n' :: tail)
    (notCr : tail.head? ≠ some (ch '\r')) :
    ReadsByte p ({ p.next_ with linenumber := p.linenumber + 1 }.save [ch '\n']) (ch '\n') tail where
  z := next_of bytes
  buff := rfl
  loop fuel := by
    have isChar := current_of bytes
    have alone : (find TvmJit.newline p.next_.current && p.next_.current != p.current) = false := by
      have second : p.next_.current = tail.head? := by rw [current, next_of bytes]
      rw [second, isChar, find_newline_eq]
      cases tail with
      | nil => rfl
      | cons c tail =>
          have other : c ≠ ch '\r' := fun isCr => notCr (congrArg some isCr)
          simp only [List.head?_cons, Option.any_some, isEolByte]
          grind
    have past : p.inclinenumber = { p.next_ with linenumber := p.linenumber + 1 } := by
      rw [inclinenumber, alone]
      rfl
    rw [stringLoop, isChar, if_neg (by decide), if_neg (by decide), if_neg (by decide),
      if_pos (by rw [newline_bytes]; decide), past]

theorem gethexa_hexUpper {h : Nat} {tail : GCstr} (nibble : h < 16)
    (bytes : p.next_.z = hexUpper h :: tail) : p.gethexa = .ok (h, p.next_) := by
  have table : ∀ h : Fin 16, find xdigit (some (hexUpper h)) = true ∧ hexValue (hexUpper h) = h := by
    decide +kernel
  have ⟨digit, value⟩ := table ⟨h, nibble⟩
  rw [gethexa_eq, current_of bytes, if_pos digit]
  exact congrArg (fun value => Except.ok (value, p.next_)) value

/-- A byte written as two hexadecimal digits. -/
theorem readsByte_hex {c : UInt8} {tail : GCstr}
    (bytes : p.z = ch '\\' :: ch 'x' :: hexUpper (c.toNat >>> 4) ::
      hexUpper (c.toNat &&& 0x0F) :: tail) :
    ReadsByte p (p.next_.next_.next_.next_.save [c]) c tail where
  z := next_of (next_of (next_of (next_of bytes)))
  buff := rfl
  loop fuel := by
    have small := c.toNat_lt
    obtain ⟨whole, low⟩ := nibbles c.toNat
    have high : c.toNat >>> 4 < 16 := by omega
    have second := current_of (next_of bytes)
    have read : p.next_.readhexaesc = .ok ([c], p.next_.next_.next_) := by
      rw [readhexaesc, gethexa_hexUpper high (next_of (next_of bytes))]
      change (p.next_.next_.gethexa >>= _) = _
      rw [gethexa_hexUpper low (next_of (next_of (next_of bytes)))]
      change Except.ok ([UInt8.ofNat (16 * (c.toNat >>> 4) + (c.toNat &&& 0x0F))], _) = _
      rw [mul_comm, whole, UInt8.ofNat_toNat]
    apply stringLoop_escape (current_of bytes)
    have notSimple : Lexer.simpleEscape (ch 'x') = none := rfl
    rw [escape, second]
    dsimp only
    rw [notSimple]
    dsimp only
    rw [if_pos rfl, read]
    rfl

/-- A byte written as it is. -/
theorem readsByte_plain {c : UInt8} {tail : GCstr} (notQuote : c ≠ ch '"') (notEscape : c ≠ ch '\\')
    (notEol : isEolByte c = false) (bytes : p.z = c :: tail) :
    ReadsByte p p.saveAndNext c tail where
  z := next_of bytes
  buff := by
    rw [saveAndNext, current_of bytes]
    rfl
  loop fuel := by
    rw [stringLoop, current_of bytes, find_newline_eq, Option.any_some, notEol,
      if_neg (by simpa using notQuote), if_neg (by simp), if_neg (by simpa using notEscape),
      if_neg (by decide)]

/-- What `tvm_quote` writes for one byte is read as that byte. -/
theorem readsByte_quote {len : Nat} {c : UInt8} {tail : GCstr}
    (bytes : p.z = quoteByte len c ++ tail) (notCr : tail.head? ≠ some (ch '\r')) :
    ∃ p', ReadsByte p p' c tail := by
  unfold quoteByte at bytes
  split at bytes
  · next isPair =>
      simp only [Bool.or_eq_true, beq_iff_eq] at isPair
      exact ⟨_, readsByte_pair isPair bytes⟩
  · next notPair =>
      simp only [Bool.or_eq_true, beq_iff_eq, not_or] at notPair
      split at bytes
      · next isLine =>
          simp only [Bool.and_eq_true, beq_iff_eq] at isLine
          obtain ⟨rfl, -⟩ := isLine
          exact ⟨_, readsByte_newline bytes notCr⟩
      · split at bytes
        · exact ⟨_, readsByte_hex bytes⟩
        · next printable =>
            have notControl : isEolByte c = false := by
              have low : ch '\n' < ch ' ' ∧ ch '\r' < ch ' ' := by decide
              simp only [isEolByte]
              grind
            exact ⟨_, readsByte_plain notPair.1 notPair.2 notControl bytes⟩

theorem stringLoop_quoted {len : Nat} (s : GCstr) {tail : GCstr}
    (bytes : p.z = s.flatMap (quoteByte len) ++ ch '"' :: tail) (enough : s.length < fuel) :
    ∃ q, p.stringLoop fuel = .ok q ∧ q.z = ch '"' :: tail ∧ q.buff = p.buff ++ s := by
  induction s generalizing p fuel with
  | nil =>
      obtain ⟨fuel, rfl⟩ : ∃ n, fuel = n + 1 := ⟨fuel - 1, by omega⟩
      refine ⟨p, ?_, bytes, (List.append_nil _).symm⟩
      rw [stringLoop, if_pos (current_of bytes)]
  | cons c s induction =>
      rw [List.length_cons] at enough
      obtain ⟨fuel, rfl⟩ : ∃ n, fuel = n + 1 := ⟨fuel - 1, by omega⟩
      rw [List.flatMap_cons, List.append_assoc] at bytes
      have notCr : (s.flatMap (quoteByte len) ++ ch '"' :: tail).head? ≠ some (ch '\r') := by
        cases s with
        | nil => simp [ch]
        | cons c s =>
            rw [List.flatMap_cons, List.append_assoc]
            exact quoteByte_head len c _
      obtain ⟨p', reads⟩ := readsByte_quote bytes notCr
      have short : s.length < fuel := by omega
      obtain ⟨q, run, left, buff⟩ := induction reads.z short
      refine ⟨q, by rw [reads.loop, run], left, ?_⟩
      rw [buff, reads.buff, List.append_assoc]
      rfl

section

variable [Tonumber]

/-- Behind blanks and line breaks, the token `tok` is read up to `tail`. -/
def Reads (z : GCstr) (tok : Token) (tail : GCstr) : Prop :=
  ∀ (p : P) (steps fuel : Nat), p.z = z → p.buff = [] → z.length < steps → z.length < fuel →
    ∃ q, nextLoop steps fuel p = .ok (tok, q) ∧ q.z = tail

namespace Reads

variable {z tail : GCstr} {tok : Token}

theorem next (reads : Reads z tok tail) (bytes : p.z = z) (enough : z.length < fuel) :
    ∃ q, p.next fuel = .ok (tok, q) ∧ q.z = tail :=
  reads { p with lastline := p.linenumber, buff := [] } fuel fuel bytes rfl enough enough

theorem blank (reads : Reads z tok tail) : Reads (ch ' ' :: z) tok tail := by
  intro p steps fuel bytes fresh enoughSteps enough
  rw [List.length_cons] at enoughSteps enough
  obtain ⟨fuel, rfl⟩ : ∃ n, fuel = n + 1 := ⟨fuel - 1, by omega⟩
  rw [nextLoop, current_of bytes, if_neg (by rw [newline_bytes]; decide), if_pos (by decide)]
  exact reads p.next_ steps fuel (next_of bytes) fresh (by omega) (by omega)

theorem newline (reads : Reads (ch '(' :: z) tok tail) :
    Reads (ch '\n' :: ch '(' :: z) tok tail := by
  intro p steps fuel bytes fresh enoughSteps enough
  rw [List.length_cons] at enoughSteps enough
  obtain ⟨fuel, rfl⟩ : ∃ n, fuel = n + 1 := ⟨fuel - 1, by omega⟩
  have after := next_of bytes
  have alone : find TvmJit.newline p.next_.current = false := by
    rw [current_of after, newline_bytes]
    decide
  have past : p.inclinenumber = { p.next_ with linenumber := p.linenumber + 1 } := by
    rw [inclinenumber, alone, Bool.false_and]
    rfl
  rw [nextLoop, current_of bytes, if_pos (by rw [newline_bytes]; decide), past]
  exact reads _ steps fuel after fresh (by omega) (by omega)

/-- A token of one byte. -/
theorem single {b : UInt8} (isToken : (b, tok) ∈ [(ch '(', Token.lparen), (ch ')', .rparen),
    (ch ':', .colon)]) : Reads (b :: z) tok z := by
  intro p steps fuel bytes fresh enoughSteps enough
  rw [List.length_cons] at enough
  obtain ⟨fuel, rfl⟩ : ∃ n, fuel = n + 1 := ⟨fuel - 1, by omega⟩
  refine ⟨p.next_, ?_, next_of bytes⟩
  rw [nextLoop, current_of bytes]
  simp only [List.mem_cons, Prod.mk.injEq, List.not_mem_nil, or_false] at isToken
  rcases isToken with ⟨rfl, rfl⟩ | ⟨rfl, rfl⟩ | ⟨rfl, rfl⟩
  · rw [if_neg (by rw [newline_bytes]; decide), if_neg (by decide), if_neg (by decide), if_pos rfl]
  · rw [if_neg (by rw [newline_bytes]; decide), if_neg (by decide), if_neg (by decide), if_neg (by decide),
      if_pos rfl]
  · rw [if_neg (by rw [newline_bytes]; decide), if_neg (by decide), if_neg (by decide), if_neg (by decide),
      if_neg (by decide), if_pos rfl]

theorem eof : Reads [] .eof [] := by
  intro p steps fuel bytes fresh enoughSteps enough
  obtain ⟨fuel, rfl⟩ : ∃ n, fuel = n + 1 := ⟨fuel - 1, by rw [List.length_nil] at enough; omega⟩
  have atEnd : p.current = none := by rw [current, bytes]; rfl
  refine ⟨p, ?_, bytes⟩
  rw [nextLoop, atEnd]
  rfl

end Reads

/-! ## Names -/

/-- The name reads as itself: no other token starts like it, it has no byte that
ends a name, and no backslash. -/
def plainName (s : GCstr) : Bool :=
  startsName s.head? && s.all fun b => !endsName (some b) && b != ch '\\'

/-- The byte a name starts with is no other token's. -/
theorem nextLoop_name (starts : startsName p.current = true) :
    nextLoop steps (fuel + 1) p = p.readName steps := by
  have facts : ∀ b, startsName (some b) = true → isEolByte b = false ∧ isBlank (some b) = false ∧
      b ≠ ch ';' ∧ b ≠ ch '(' ∧ b ≠ ch ')' ∧ b ≠ ch ':' ∧ b ≠ ch '"' ∧
      startsNumber (some b) = false := by
    simp only [startsName, endsName, isEolByte, isBlank, Bool.and_eq_true]
    grind
  cases isChar : p.current with
  | none =>
      rw [isChar] at starts
      cases starts
  | some b =>
      rw [isChar] at starts
      obtain ⟨notEol, notBlank, notComment, notLparen, notRparen, notColon, notQuote, notNumber⟩ :=
        facts b starts
      rw [nextLoop, isChar, find_newline_eq, find_space, find_digitSign, Option.any_some, notEol,
        notBlank, notNumber]
      simp [notComment, notLparen, notRparen, notColon, notQuote]

theorem reads_name {s tail : GCstr} {d : UInt8} (plain : plainName s = true)
    (delimiter : isDelimiter d = true) : Reads (s ++ d :: tail) (.name s) (d :: tail) := by
  intro p steps fuel bytes fresh enoughSteps enough
  rw [plainName, Bool.and_eq_true] at plain
  obtain ⟨starts, plain⟩ := plain
  have isEnd : ∀ d, isDelimiter d = true → endsName (some d) = true :=
    fun d delimiter => delimiter_forall delimiter (by decide)
  have starts : startsName p.current = true := by
    cases s with
    | nil => cases starts
    | cons b s => rwa [current_of bytes]
  have plain : ∀ b ∈ s, endsName (some b) = false ∧ b ≠ ch '\\' := by
    simpa using plain
  rw [List.length_append] at enough enoughSteps
  obtain ⟨q, run, left, buff⟩ := nameLoop_plain (isEnd d delimiter) plain bytes
    (Nat.lt_of_le_of_lt (Nat.le_add_right _ _) enoughSteps)
  obtain ⟨fuel, rfl⟩ : ∃ n, fuel = n + 1 := ⟨fuel - 1, by omega⟩
  refine ⟨q, ?_, left⟩
  rw [nextLoop_name starts, readName, run]
  change Except.ok (Token.name q.buff, q) = _
  rw [buff, fresh, List.nil_append]

theorem readBody_whole {b d : UInt8} {rest tail : GCstr} {n : Num} (delimiter : isDelimiter d = true)
    (whole : bodyText b rest = (b :: rest, [])) (bytes : p.z = b :: (rest ++ d :: tail))
    (value : Tonumber.tonumber (p.buff ++ b :: rest) = some n) (enough : p.z.length < steps) :
    ∃ q, Lexer.P.readBody steps p = .ok (.number n, q) ∧ q.z = d :: tail := by
  have run := Lexer.P.readBody_eq bytes enough
  rw [bodyText_delimited delimiter whole] at run
  refine ⟨Lexer.P.took p (b :: rest, d :: tail), ?_, rfl⟩
  unfold Lexer.P.readBody
  dsimp only
  generalize (if p.current = some (ch '0') then p.saveAndNext.checkNext (.ofString "Xx")
    else (false, p.saveAndNext)) = prefixed at run ⊢
  obtain ⟨hex, q⟩ := prefixed
  dsimp only at run ⊢
  rw [run]
  change Lexer.P.literal (Lexer.P.took p (b :: rest, d :: tail)) = _
  have isBuff : (Lexer.P.took p (b :: rest, d :: tail)).buff = p.buff ++ b :: rest := rfl
  rw [Lexer.P.literal, isBuff, value]

/-- The byte a number starts with is no other token's. -/
theorem nextLoop_number (starts : startsNumber p.current = true) :
    nextLoop steps (fuel + 1) p = p.readNumeral steps := by
  have facts : ∀ b, startsNumber (some b) = true → isEolByte b = false ∧ isBlank (some b) = false ∧
      b ≠ ch ';' ∧ b ≠ ch '(' ∧ b ≠ ch ')' ∧ b ≠ ch ':' ∧ b ≠ ch '"' := by
    intro b starts
    rw [← find_digitSign] at starts
    exact find_forall digitSign_bytes starts (by decide +kernel)
  cases isChar : p.current with
  | none =>
      rw [isChar] at starts
      cases starts
  | some b =>
      rw [isChar] at starts
      obtain ⟨notEol, notBlank, notComment, notLparen, notRparen, notColon, notQuote⟩ :=
        facts b starts
      rw [nextLoop, isChar, find_newline_eq, find_space, find_digitSign, Option.any_some, notEol,
        notBlank, starts]
      simp [notComment, notLparen, notRparen, notColon, notQuote]

theorem reads_number {text tail : GCstr} {d : UInt8} {n : Num} (whole : wholeNumeral text = true)
    (value : Tonumber.tonumber text = some n) (delimiter : isDelimiter d = true) :
    Reads (text ++ d :: tail) (.number n) (d :: tail) := by
  intro p steps fuel bytes fresh enoughSteps enough
  obtain ⟨fuel, rfl⟩ : ∃ n, fuel = n + 1 := ⟨fuel - 1, by omega⟩
  cases text with
  | nil => cases whole
  | cons s text =>
      rw [wholeNumeral, unsigned, List.head?_cons, Bool.and_eq_true] at whole
      obtain ⟨starts, whole⟩ := whole
      have isChar := current_of bytes
      have starts : startsNumber p.current = true := by rwa [isChar]
      by_cases isSign : find TvmJit.sign (some s) = true
      · rw [if_pos isSign, List.tail_cons] at whole
        cases text with
        | nil => cases whole
        | cons b text =>
            dsimp only at whole
            rw [Bool.and_eq_true, beq_iff_eq] at whole
            have after : p.saveAndNext.z = b :: (text ++ d :: tail) := next_of bytes
            have saved : p.saveAndNext.buff = [s] := by
              rw [saveAndNext, isChar]
              exact congrArg (· ++ [s]) fresh
            have body := readBody_whole delimiter whole.2 after (by rw [saved]; exact value)
              (by rw [after]; exact (Nat.lt_succ_self _).trans enoughSteps)
            rw [nextLoop_number starts, Lexer.P.readNumeral_eq, isChar, if_pos isSign]
            exact body
      · rw [if_neg isSign] at whole
        dsimp only at whole
        rw [Bool.and_eq_true, beq_iff_eq] at whole
        have body := readBody_whole delimiter whole.2 bytes (by rw [fresh]; exact value)
          (by rw [bytes]; exact enoughSteps)
        rw [nextLoop_number starts, Lexer.P.readNumeral_eq, isChar, if_neg isSign]
        exact body

theorem reads_quoted {s t tail : GCstr} (quoted : tvmQuote s = .ok t) :
    Reads (t ++ tail) (.string s) tail := by
  intro p steps fuel bytes fresh enoughSteps enough
  obtain ⟨rfl, -⟩ := pushresult_eq_ok quoted
  have shape : ch '"' :: s.flatMap (quoteByte s.length) ++ [ch '"'] ++ tail =
      ch '"' :: (s.flatMap (quoteByte s.length) ++ ch '"' :: tail) := by simp
  rw [shape] at bytes enough enoughSteps
  have length := quoted_length s.length s
  rw [List.length_cons, List.length_append, List.length_cons] at enough enoughSteps
  obtain ⟨fuel, rfl⟩ : ∃ n, fuel = n + 1 := ⟨fuel - 1, by omega⟩
  have isQuote := current_of bytes
  have after : p.saveAndNext.z = s.flatMap (quoteByte s.length) ++ ch '"' :: tail := next_of bytes
  have saved : p.saveAndNext.buff = [ch '"'] := by
    rw [saveAndNext, isQuote]
    exact congrArg (· ++ [ch '"']) fresh
  have short : s.length < steps := by omega
  obtain ⟨q, run, left, buff⟩ := stringLoop_quoted s after short
  refine ⟨q.saveAndNext, ?_, next_of left⟩
  have closed : q.saveAndNext.buff = ch '"' :: s ++ [ch '"'] := by
    rw [saveAndNext, current_of left]
    change q.buff ++ [ch '"'] = _
    rw [buff, saved]
    rfl
  rw [nextLoop, isQuote, if_neg (by rw [newline_bytes]; decide), if_neg (by decide), if_neg (by decide),
    if_neg (by decide), if_neg (by decide), if_neg (by decide), if_pos rfl, readString, run]
  change Except.ok (Token.string q.saveAndNext.buff.tail.dropLast, q.saveAndNext) = _
  rw [closed, List.cons_append, List.tail_cons, List.dropLast_concat]

end

end P

end TvmJit
