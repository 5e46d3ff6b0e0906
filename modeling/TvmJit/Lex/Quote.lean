import TvmJit.Gc.Colours
import TvmJit.Lex.Ending
import TvmJit.Utf8

/-! `tvm.quote` and `tvm.escape`, which write a byte string as a string literal
and as a name, and what the scanner reads back from them. -/

namespace TvmJit

/-- `luaL_pushresult`: the string of a buffer, if it is not too long. -/
def pushresult (b : GCstr) : Except LibError GCstr :=
  if b.length ≥ LJ_MAX_STR then .error (.msg "string length overflow") else .ok b

/-- The bytes `tvm_escape` adds for one byte. -/
def escapeByte (c : UInt8) : GCstr :=
  if c == ch '(' || c == ch ')' || c == ch ':' || ljCharIsspace (some c) then [ch '\\', c] else [c]

/-- `tvm_escape`. -/
def tvmEscape (s : GCstr) : Except LibError GCstr := pushresult (s.flatMap escapeByte)

/-- A digit of an escape `tvm_quote` writes. -/
def hexUpper (h : Nat) : UInt8 :=
  if h ≥ 0x0A then UInt8.ofNat (65 - 10 + h) else UInt8.ofNat (48 + h)

/-- The bytes `tvm_quote` adds for one byte of a string of length `len`. -/
def quoteByte (len : Nat) (c : UInt8) : GCstr :=
  if c == ch '"' || c == ch '\\' then [ch '\\', c]
  else if c == ch '\n' && len > 32 then [c]
  else if c < ch ' ' then [ch '\\', ch 'x', hexUpper (c.toNat >>> 4), hexUpper (c.toNat &&& 0x0F)]
  else [c]

/-- `tvm_quote`. -/
def tvmQuote (s : GCstr) : Except LibError GCstr :=
  pushresult (ch '"' :: s.flatMap (quoteByte s.length) ++ [ch '"'])

theorem pushresult_eq_ok {b t : GCstr} (pushed : pushresult b = .ok t) :
    t = b ∧ b.length < LJ_MAX_STR := by
  unfold pushresult at pushed
  split at pushed
  · cases pushed
  · next short =>
      cases pushed
      exact ⟨rfl, Nat.lt_of_not_le short⟩

namespace Lexer

variable {ls ls' : Lexer}

theorem c_of_rest {b : UInt8} {tail : GCstr} (bytes : ls.rest = b :: tail) : ls.c = some b := by
  rw [c_eq_head?, bytes]
  rfl

/-! ## Strings -/

theorem hexUpper_digit {h : Nat} (nibble : h < 16) :
    (ljCharIsdigit (some (hexUpper h)) = true ∧ (hexUpper h &&& 15).toNat = h) ∨
      (ljCharIsdigit (some (hexUpper h)) = false ∧ ljCharIsxdigit (some (hexUpper h)) = true ∧
        (hexUpper h &&& 15).toNat + 9 = h) := by
  have table : ∀ h : Fin 16,
      (ljCharIsdigit (some (hexUpper h)) = true ∧ (hexUpper h &&& 15).toNat = h) ∨
        (ljCharIsdigit (some (hexUpper h)) = false ∧ ljCharIsxdigit (some (hexUpper h)) = true ∧
          (hexUpper h &&& 15).toNat + 9 = h) := by decide +kernel
  exact table ⟨h, nibble⟩

/-- One digit written by `tvm_quote` is read. -/
theorem hexDigits_hexUpper (n value : Nat) {h : Nat} (nibble : h < 16)
    (isChar : ls.next.c = some (hexUpper h)) :
    hexDigits (n + 1) value ls = hexDigits n (value * 16 + h) ls.next := by
  rw [hexDigits]
  simp only [isChar, Option.getD_some]
  rcases hexUpper_digit nibble with ⟨digit, read⟩ | ⟨notDigit, digit, read⟩
  · rw [if_pos digit, read]
  · rw [notDigit, if_neg (by decide), if_pos digit, read]

/-- The string loop over the bytes written for one byte. -/
structure ReadsByte (ls ls' : Lexer) (c : UInt8) (tail : GCstr) (lines : Nat) : Prop where
  rest : ls'.rest = tail
  sb : ls'.sb = ls.sb ++ [c]
  line : ls'.linenumber = ls.linenumber + lines
  loop : ∀ fuel, stringLoop (fuel + 1) ls = stringLoop fuel ls'

theorem stringLoop_escape {fuel : Nat} (isEscape : ls.c = some (ch '\\'))
    (read : ls.next.escape = .ok ls') : stringLoop (fuel + 1) ls = stringLoop fuel ls' := by
  rw [stringLoop, if_neg (by rw [isEscape]; decide), if_neg (by rw [isEscape]; decide),
    if_pos isEscape, read]
  rfl

/-- A quotation mark or a backslash, written as a pair. -/
theorem readsByte_pair {c : UInt8} {tail : GCstr} (isPair : c = ch '"' ∨ c = ch '\\')
    (bytes : ls.rest = ch '\\' :: c :: tail) : ReadsByte ls (ls.next.escaped [c]) c tail 0 where
  rest := by rw [rest_escaped, rest_next, bytes]; rfl
  sb := rfl
  line := (add_zero _).symm
  loop fuel := by
    have second : ls.next.c = some c := c_of_rest (by rw [rest_next, bytes]; rfl)
    apply stringLoop_escape (c_of_rest bytes)
    rcases isPair with rfl | rfl <;> simp only [escape, second] <;> rfl

/-- A line break, written as it is. -/
theorem readsByte_newline {tail : GCstr} (bytes : ls.rest = ch '\n' :: tail)
    (notCr : tail.head? ≠ some (ch '\r')) (within : ls.linenumber + 1 < LJ_MAX_LINE) :
    ReadsByte ls (save { ls.next with linenumber := ls.linenumber + 1 } (ch '\n')) (ch '\n') tail 1 where
  rest := by
    change ls.next.rest = tail
    rw [rest_next, bytes]
    rfl
  sb := rfl
  line := rfl
  loop fuel := by
    have isChar := c_of_rest bytes
    have isEol : ls.iseol = true := by rw [iseol_eq isChar]; rfl
    have single : ls.pastEol = ls.next := by
      have second : ls.next.c = tail.head? := by rw [c_eq_head?, rest_next, bytes]; rfl
      rw [pastEol, if_neg]
      rw [iseol, second, isChar]
      simp [notCr]
    have skipped : ls.newline = .ok { ls.next with linenumber := ls.linenumber + 1 } := by
      rw [newline_eq, single, if_neg]
      · rfl
      · exact not_le.mpr within
    rw [stringLoop, if_neg (by rw [isChar]; decide), if_neg (by rw [isChar]; decide),
      if_neg (by rw [isChar]; decide), if_pos isEol, skipped]
    rfl

theorem nibbles (n : Nat) : (n >>> 4) * 16 + (n &&& 0x0F) = n ∧ n &&& 0x0F < 16 := by
  have low : n &&& 0x0F = n % 16 := Nat.and_two_pow_sub_one_eq_mod n 4
  rw [low, Nat.shiftRight_eq_div_pow]
  omega

/-- A byte written as two hexadecimal digits. -/
theorem readsByte_hex {c : UInt8} {tail : GCstr}
    (bytes : ls.rest = ch '\\' :: ch 'x' :: hexUpper (c.toNat >>> 4) ::
      hexUpper (c.toNat &&& 0x0F) :: tail) :
    ReadsByte ls (ls.next.next.next.escaped [c]) c tail 0 where
  rest := by
    rw [rest_escaped, rest_next, rest_next, rest_next, bytes]
    rfl
  sb := rfl
  line := (add_zero _).symm
  loop fuel := by
    have small := c.toNat_lt
    obtain ⟨whole, low⟩ := nibbles c.toNat
    have high : c.toNat >>> 4 < 16 := by omega
    have second : ls.next.c = some (ch 'x') := c_of_rest (by rw [rest_next, bytes]; rfl)
    have third : ls.next.next.c = some (hexUpper (c.toNat >>> 4)) :=
      c_of_rest (by rw [rest_next, rest_next, bytes]; rfl)
    have fourth : ls.next.next.next.c = some (hexUpper (c.toNat &&& 0x0F)) :=
      c_of_rest (by rw [rest_next, rest_next, rest_next, bytes]; rfl)
    have read : hexDigits 2 0 ls.next = .ok (c.toNat, ls.next.next.next) := by
      rw [hexDigits_hexUpper 1 0 high third, hexDigits_hexUpper 0 _ low fourth, hexDigits, zero_mul,
        zero_add, whole]
    have notSimple : simpleEscape (ch 'x') = none := rfl
    apply stringLoop_escape (c_of_rest bytes)
    simp only [escape, second, notSimple, read, if_true]
    change Except.ok (ls.next.next.next.escaped [UInt8.ofNat c.toNat]) = _
    rw [UInt8.ofNat_toNat]

/-- A byte written as it is. -/
theorem readsByte_plain {c : UInt8} {tail : GCstr} (notQuote : c ≠ ch '"') (notEscape : c ≠ ch '\\')
    (notEol : isEolByte c = false) (bytes : ls.rest = c :: tail) :
    ReadsByte ls ls.savenext c tail 0 where
  rest := by rw [rest_savenext, bytes]; rfl
  sb := by
    change ls.sb ++ [ls.c.getD 0xFF] = _
    rw [c_of_rest bytes]
    rfl
  line := (add_zero _).symm
  loop fuel := by
    have isChar := c_of_rest bytes
    rw [stringLoop, isChar, if_neg (by simpa using notQuote), if_neg (by simp),
      if_neg (by simpa using notEscape), iseol_eq isChar, notEol, if_neg (by decide)]

/-- What `tvm_quote` writes for one byte, the string loop reads as that byte. -/
theorem readsByte_quote {len : Nat} {c : UInt8} {tail : GCstr}
    (bytes : ls.rest = quoteByte len c ++ tail) (notCr : tail.head? ≠ some (ch '\r'))
    (within : c = ch '\n' → ls.linenumber + 1 < LJ_MAX_LINE) :
    ∃ ls', ReadsByte ls ls' c tail (if c = ch '\n' ∧ len > 32 then 1 else 0) := by
  unfold quoteByte at bytes
  split at bytes
  · next isPair =>
      simp only [Bool.or_eq_true, beq_iff_eq] at isPair
      rw [if_neg (by rcases isPair with rfl | rfl <;> simp [ch])]
      exact ⟨_, readsByte_pair isPair bytes⟩
  · next notPair =>
      simp only [Bool.or_eq_true, beq_iff_eq, not_or] at notPair
      split at bytes
      · next isLine =>
          simp only [Bool.and_eq_true, beq_iff_eq, decide_eq_true_eq] at isLine
          obtain ⟨rfl, long⟩ := isLine
          rw [if_pos ⟨rfl, long⟩]
          exact ⟨_, readsByte_newline bytes notCr (within rfl)⟩
      · next notLine =>
          rw [if_neg (by simpa using notLine)]
          split at bytes
          · exact ⟨_, readsByte_hex bytes⟩
          · next printable =>
              have notEol : isEolByte c = false := by
                by_contra isEol
                simp only [isEolByte, Bool.not_eq_false, Bool.or_eq_true, beq_iff_eq] at isEol
                rcases isEol with rfl | rfl
                · exact printable (by decide)
                · exact printable (by decide)
              exact ⟨_, readsByte_plain notPair.1 notPair.2 notEol bytes⟩

/-- No byte is written with a carriage return first. -/
theorem quoteByte_head (len : Nat) (c : UInt8) (tail : GCstr) :
    (quoteByte len c ++ tail).head? ≠ some (ch '\r') := by
  unfold quoteByte
  split
  · simp [ch]
  · split
    · next isLine =>
        simp only [Bool.and_eq_true, beq_iff_eq] at isLine
        simp [isLine.1, ch]
    · split
      · simp [ch]
      · next printable =>
          intro isCr
          have : c = ch '\r' := by simpa using isCr
          subst this
          exact printable (by decide)

/-- The loop of `lex_string` over a quoted string. -/
theorem stringLoop_quoted {len : Nat} (s more : GCstr) {fuel : Nat}
    (bytes : ls.rest = s.flatMap (quoteByte len) ++ ch '"' :: more) (enough : s.length < fuel)
    (within : ls.linenumber + s.length < LJ_MAX_LINE) :
    ∃ ls', stringLoop fuel ls = .ok ls' ∧ ls'.rest = ch '"' :: more ∧ ls'.sb = ls.sb ++ s := by
  induction s generalizing ls fuel with
  | nil =>
      cases fuel with
      | zero => cases enough
      | succ fuel =>
          refine ⟨ls, ?_, bytes, (List.append_nil _).symm⟩
          rw [stringLoop, if_pos (c_of_rest bytes)]
  | cons c s induction =>
      cases fuel with
      | zero => cases enough
      | succ fuel =>
          rw [List.flatMap_cons, List.append_assoc] at bytes
          have notCr : (s.flatMap (quoteByte len) ++ ch '"' :: more).head? ≠ some (ch '\r') := by
            cases s with
            | nil => simp [ch]
            | cons c s =>
                rw [List.flatMap_cons, List.append_assoc]
                exact quoteByte_head len c _
          simp only [List.length_cons, Nat.cast_succ] at within enough
          obtain ⟨ls₁, reads⟩ := readsByte_quote bytes notCr fun _ => by lia
          have line : ls₁.linenumber + s.length < LJ_MAX_LINE := by
            rw [reads.line]
            split <;> push_cast <;> lia
          have short : s.length < fuel := by omega
          obtain ⟨ls', loop, rest, sb⟩ := induction reads.rest short line
          refine ⟨ls', by rw [reads.loop, loop], rest, ?_⟩
          rw [sb, reads.sb, List.append_assoc]
          rfl

theorem quoteByte_length (len : Nat) (c : UInt8) : 1 ≤ (quoteByte len c).length := by
  unfold quoteByte
  split
  · simp
  · split
    · simp
    · split <;> simp

theorem quoted_length (len : Nat) (s : GCstr) : s.length ≤ (s.flatMap (quoteByte len)).length := by
  induction s with
  | nil => rfl
  | cons c s induction =>
      have := quoteByte_length len c
      rw [List.flatMap_cons, List.length_append, List.length_cons]
      omega

/-- The scanner at a string literal: it takes what the string loop saves and stops behind
the literal. -/
theorem ljLexNext_string [StrScan] {s contents more : GCstr} {fuel : Nat}
    (bytes : ls.rest = ch '"' :: contents) (positive : 0 < fuel)
    (reads : ∀ ls₁ : Lexer, ls₁.rest = contents → ls₁.linenumber = ls.linenumber →
      ∃ ls₂, stringLoop fuel ls₁ = .ok ls₂ ∧ ls₂.rest = ch '"' :: more ∧ ls₂.sb = ls₁.sb ++ s) :
    ∃ ls', ljLexNext fuel ls = .ok (.string s, ls') ∧ ls'.rest = more := by
  let start : Lexer := { ls with lastline := ls.linenumber, sb := [] }
  have isChar : start.c = some (ch '"') := c_of_rest bytes
  have opened : start.savenext.rest = contents := by
    rw [rest_savenext]
    change ls.rest.tail = _
    rw [bytes]
    rfl
  have saved : start.savenext.sb = [ch '"'] := by
    change [start.c.getD 0xFF] = _
    rw [isChar]
    rfl
  obtain ⟨ls₁, loop, rest, sb⟩ := reads start.savenext opened rfl
  have closed : ls₁.savenext.sb = ch '"' :: s ++ [ch '"'] := by
    change ls₁.sb ++ [ls₁.c.getD 0xFF] = _
    rw [c_of_rest rest, sb, saved]
    rfl
  have scanned : start.string fuel = .ok (.string s, ls₁.savenext) := by
    rw [string, loop]
    change Except.ok (Token.string ls₁.savenext.sb.tail.dropLast, _) = _
    rw [closed]
    simp
  have dispatched : nextLoop fuel fuel start = .ok (.string s, ls₁.savenext) := by
    cases fuel with
    | zero => cases positive
    | succ fuel =>
        have notEol : start.iseol = false := by rw [iseol_eq isChar]; rfl
        rw [nextLoop, notEol, isChar, if_neg (by decide), if_neg (by decide), if_neg (by decide),
          if_neg (by decide), if_neg (by decide), if_neg (by decide), if_pos rfl]
        exact scanned
  refine ⟨{ ls₁.savenext with tok := some .string }, ?_, ?_⟩
  · rw [ljLexNext, dispatched]
    rfl
  · change ls₁.savenext.rest = more
    rw [rest_savenext, rest]
    rfl

/-- The scanner at a quoted string: it reads the string and stops behind it. -/
theorem ljLexNext_quoted [StrScan] {len : Nat} (s more : GCstr) {fuel : Nat}
    (bytes : ls.rest = ch '"' :: s.flatMap (quoteByte len) ++ ch '"' :: more)
    (enough : s.length < fuel) (within : ls.linenumber + s.length < LJ_MAX_LINE) :
    ∃ ls', ljLexNext fuel ls = .ok (.string s, ls') ∧ ls'.rest = more := by
  apply ljLexNext_string bytes (by omega)
  intro ls₁ opened sameLine
  exact stringLoop_quoted s more opened enough (by rw [sameLine]; exact within)

theorem rest_more (rdata : List Piece) : (LexInput.more rdata).rest = rdata.flatMap Piece.bytes := by
  cases rdata with
  | nil => rfl
  | cons piece rdata => rfl

/-- A fresh scanner on a reader whose first byte is a quotation mark. -/
theorem ljLexSetup_quote {rdata : List Piece} {tail : GCstr} (fuel : Nat)
    (bytes : rdata.flatMap Piece.bytes = ch '"' :: tail) :
    ljLexSetup fuel rdata = .ok (false, { input := .more rdata }) := by
  cases rdata with
  | nil => cases bytes
  | cons piece rdata =>
      obtain ⟨first, others⟩ := piece
      obtain rfl : first = ch '"' := by
        simp only [List.flatMap_cons, Piece.bytes, List.cons_append, List.cons.injEq] at bytes
        exact bytes.1
      rfl

/-- The scanner undoes `tvm.quote`, however the text is delivered and whatever
follows it. -/
theorem quote_read_back [StrScan] (s t more : GCstr) (rdata : List Piece) (quoted : tvmQuote s = .ok t)
    (delivered : rdata.flatMap Piece.bytes = t ++ more) :
    ∃ ls, (∀ fuel, ljLexSetup fuel rdata = .ok (false, ls)) ∧
      ∃ enough, ∀ fuel ≥ enough,
        ∃ ls', ljLexNext fuel ls = .ok (.string s, ls') ∧ ls'.rest = more := by
  obtain ⟨rfl, short⟩ := pushresult_eq_ok quoted
  have bytes : rdata.flatMap Piece.bytes =
      ch '"' :: s.flatMap (quoteByte s.length) ++ ch '"' :: more := by
    rw [delivered]
    simp
  refine ⟨_, fun fuel => ljLexSetup_quote fuel bytes, s.length + 1, fun fuel enough => ?_⟩
  have isRest : Lexer.rest { input := .more rdata } = _ := (rest_more rdata).trans bytes
  refine ljLexNext_quoted s more isRest enough ?_
  have longer := quoted_length s.length s
  simp only [List.length_append, List.length_cons, List.length_nil, LJ_MAX_STR] at short
  simp only [LJ_MAX_LINE]
  lia

/-- The scanner without numbers, for texts that have none. -/
@[reducible] def noNumbers : StrScan := ⟨fun _ => .error⟩

/-- A string of a control byte, a quotation mark and a backslash, in two pieces. -/
theorem quote_read_back_control :
    ∃ ls, (∀ fuel, ljLexSetup fuel [⟨ch '"', [ch '\\', ch 'x', ch '0']⟩,
        ⟨ch '7', [ch '\\', ch '"', ch '\\', ch '\\', ch '"', ch ')']⟩] = .ok (false, ls)) ∧
      ∃ enough, ∀ fuel ≥ enough,
        ∃ ls', @ljLexNext noNumbers fuel ls = .ok (.string [7, ch '"', ch '\\'], ls') ∧
          ls'.rest = [ch ')'] :=
  @quote_read_back noNumbers [7, ch '"', ch '\\'] _ [ch ')'] _ rfl rfl

/-! ## Names -/

/-- The name at the start of some bytes and what follows it. -/
def nameText : GCstr → Option (GCstr × GCstr)
  | [] => none
  | b :: rest =>
      if endsName (some b) then some ([], b :: rest)
      else if b = ch '\\' then
        match rest with
        | [] => none
        | c :: rest => (nameText rest).map fun r => (c :: r.1, r.2)
      else (nameText rest).map fun r => (b :: r.1, r.2)

theorem nameText_cons (b : UInt8) (rest : GCstr) :
    nameText (b :: rest) =
      if endsName (some b) then some ([], b :: rest)
      else if b = ch '\\' then
        match rest with
        | [] => none
        | c :: rest => (nameText rest).map fun r => (c :: r.1, r.2)
      else (nameText rest).map fun r => (b :: r.1, r.2) := nameText.eq_def (b :: rest)

theorem nameText_end {b : UInt8} {rest : GCstr} (isEnd : endsName (some b) = true) :
    nameText (b :: rest) = some ([], b :: rest) := by
  rw [nameText_cons, if_pos isEnd]

theorem nameText_escaped (c : UInt8) (rest : GCstr) :
    nameText (ch '\\' :: c :: rest) = (nameText rest).map fun r => (c :: r.1, r.2) := by
  rw [nameText_cons, if_neg (by decide), if_pos rfl]

theorem nameText_plain {b : UInt8} {rest : GCstr} (notEnd : endsName (some b) = false)
    (notEscape : b ≠ ch '\\') :
    nameText (b :: rest) = (nameText rest).map fun r => (b :: r.1, r.2) := by
  rw [nameText_cons, notEnd, if_neg (by decide), if_neg notEscape]

theorem nameEnds_iff (bytes : GCstr) : nameEnds bytes = (nameText bytes).isSome := by
  induction bytes using nameEnds.induct with
  | case1 => rfl
  | case2 b rest isEnd => rw [nameEnds_cons, nameText_cons, if_pos isEnd, if_pos isEnd]; rfl
  | case3 notEnd =>
      rw [nameEnds_cons, nameText_cons, if_neg notEnd, if_neg notEnd, if_pos rfl, if_pos rfl]
      rfl
  | case4 c rest notEnd induction =>
      rw [nameEnds_cons, nameText_cons, if_neg notEnd, if_neg notEnd, if_pos rfl, if_pos rfl]
      simpa using induction
  | case5 b rest notEnd notEscape induction =>
      rw [nameEnds_cons, nameText_cons, if_neg notEnd, if_neg notEnd, if_neg notEscape,
        if_neg notEscape]
      simpa using induction

/-- The loop of `lex_name` saves the name and stops behind it. -/
theorem nameLoop_eq {name after : GCstr} {fuel : Nat} (text : nameText ls.rest = some (name, after))
    (enough : ls.rest.length < fuel) :
    ∃ ls', nameLoop fuel ls = .ok ls' ∧ ls'.rest = after ∧ ls'.sb = ls.sb ++ name ∧
      ls'.linenumber = ls.linenumber := by
  induction fuel generalizing ls name with
  | zero => omega
  | succ fuel induction =>
      rw [nameLoop]
      cases isChar : ls.c with
      | none =>
          rw [c_eq_head?, List.head?_eq_none_iff] at isChar
          rw [isChar] at text
          cases text
      | some b =>
          have shorter := length_tail_of_c isChar
          have shape := rest_eq_cons isChar
          have saved (ls₁ : Lexer) (b : UInt8) (isB : ls₁.c = some b) :
              ls₁.savenext.sb = ls₁.sb ++ [b] := by
            change ls₁.sb ++ [ls₁.c.getD 0xFF] = _
            rw [isB]
            rfl
          rw [shape, nameText_cons] at text
          split at text
          · next isEnd =>
              rw [if_pos isEnd]
              cases text
              exact ⟨ls, rfl, shape, (List.append_nil _).symm, rfl⟩
          · next notEnd =>
              rw [if_neg notEnd]
              split at text
              · next isEscape =>
                  rw [if_pos (by rw [isEscape])]
                  cases tail : ls.rest.tail with
                  | nil => rw [tail] at text; cases text
                  | cons c rest =>
                      rw [tail] at text shorter
                      obtain ⟨⟨name, after⟩, read, isName⟩ := Option.map_eq_some_iff.mp text
                      cases isName
                      have second : ls.next.c = some c := c_of_rest (by rw [rest_next, tail])
                      have next : ls.next.savenext.rest = rest := by
                        rw [rest_savenext, rest_next, tail]
                        rfl
                      rw [List.length_cons] at shorter
                      obtain ⟨ls', loop, isRest, sb, line⟩ :=
                        induction (by rw [next]; exact read) (by rw [next]; omega)
                      refine ⟨ls', loop, isRest, ?_, line⟩
                      rw [sb, saved _ c second, List.append_assoc]
                      rfl
              · next notEscape =>
                  rw [if_neg fun same => notEscape (Option.some.inj same)]
                  obtain ⟨⟨name, after⟩, read, isName⟩ := Option.map_eq_some_iff.mp text
                  cases isName
                  obtain ⟨ls', loop, isRest, sb, line⟩ :=
                    induction (by rw [rest_savenext]; exact read) (by rw [rest_savenext]; omega)
                  refine ⟨ls', loop, isRest, ?_, line⟩
                  rw [sb, saved _ b isChar, List.append_assoc]
                  rfl

/-- A byte `tvm_escape` puts a backslash before ends a name, and no other does. -/
theorem escapeByte_eq (c : UInt8) :
    escapeByte c = if endsName (some c) then [ch '\\', c] else [c] := by
  have same : (c == ch '(' || c == ch ')' || c == ch ':' || ljCharIsspace (some c)) =
      endsName (some c) := by
    rw [ljCharIsspace_byte, Bool.eq_iff_iff]
    simp only [endsName, ch, Bool.or_eq_true, Bool.and_eq_true, beq_iff_eq, decide_eq_true_eq,
      Option.some.injEq, ← UInt8.toNat_inj]
    simp only [Char.reduceToNat, Nat.toUInt8_eq, UInt8.reduceOfNat, UInt8.reduceToNat]
    omega
  rw [escapeByte, same]

section Escape

variable {more : GCstr}

/-- The text of an escaped name with the space that ends it. -/
def escapedText (s more : GCstr) : GCstr := s.flatMap escapeByte ++ ch ' ' :: more

theorem escapedText_cons (c : UInt8) (s : GCstr) :
    escapedText (c :: s) more =
      if endsName (some c) then ch '\\' :: c :: escapedText s more
      else c :: escapedText s more := by
  rw [escapedText, List.flatMap_cons, escapeByte_eq]
  split <;> rfl

/-- A byte other than the backslash is read back. -/
theorem nameText_escapedText_cons {c : UInt8} (s : GCstr) (notEscape : c ≠ ch '\\') :
    nameText (escapedText (c :: s) more) =
      (nameText (escapedText s more)).map fun r => (c :: r.1, r.2) := by
  rw [escapedText_cons]
  split
  · exact nameText_escaped c _
  · next notEnd => exact nameText_plain (by simpa using notEnd) notEscape

/-- Without backslashes an escaped name is read back. -/
theorem nameText_escapedText {s : GCstr} (noEscape : ∀ c ∈ s, c ≠ ch '\\') :
    nameText (escapedText s more) = some (s, ch ' ' :: more) := by
  induction s with
  | nil => exact nameText_end rfl
  | cons c s induction =>
      rw [nameText_escapedText_cons s (noEscape c (.head _)),
        induction fun c member => noEscape c (.tail _ member)]
      rfl

theorem replicate_append_cons {α : Type} (k : Nat) (a : α) (l : List α) :
    List.replicate k a ++ a :: l = a :: (List.replicate k a ++ l) := by
  induction k with
  | zero => rfl
  | succ k induction => rw [List.replicate_succ, List.cons_append, List.cons_append, induction]

/-- A backslash that is not escaped takes the byte after it away: what is read is
never the bytes as they were, with or without more backslashes before them. -/
theorem nameText_backslash {after : GCstr} (s : GCstr) (k : Nat) :
    nameText (escapedText s more) ≠ some (ch '\\' :: (List.replicate k (ch '\\') ++ s), after) ∧
      nameText (ch '\\' :: escapedText s more) ≠
        some (ch '\\' :: (List.replicate k (ch '\\') ++ s), after) := by
  induction length : s.length using Nat.strong_induction_on generalizing s k with
  | _ n induction =>
  have headless {c : UInt8} {rest name : GCstr} (notEscape : c ≠ ch '\\') :
      (nameText rest).map (fun r => (c :: r.1, r.2)) ≠ some (ch '\\' :: name, after) := by
    intro read
    obtain ⟨r, -, same⟩ := Option.map_eq_some_iff.mp read
    exact notEscape (List.cons.inj (Prod.mk.inj same).1).1
  cases s with
  | nil =>
      constructor
      · intro read
        have isEnd : nameText (escapedText [] more) = _ := nameText_end rfl
        rw [isEnd] at read
        cases read
      · have taken : nameText (ch '\\' :: escapedText [] more) = _ := nameText_escaped (ch ' ') more
        rw [taken]
        exact headless (by decide)
  | cons c s =>
      have shorter : s.length < n := by
        rw [← length]
        exact Nat.lt_succ_self _
      by_cases isEscape : c = ch '\\'
      · subst isEscape
        have shape : escapedText (ch '\\' :: s) more = ch '\\' :: escapedText s more := by
          rw [escapedText_cons, if_neg (by decide)]
        rw [shape, replicate_append_cons]
        constructor
        · have below := (induction s.length shorter s (k + 1) rfl).2
          rwa [List.replicate_succ, List.cons_append] at below
        · rw [nameText_escaped]
          intro read
          obtain ⟨r, isText, same⟩ := Option.map_eq_some_iff.mp read
          have tail := (List.cons.inj (Prod.mk.inj same).1).2
          apply (induction s.length shorter s k rfl).1
          rw [isText, ← tail, ← (Prod.mk.inj same).2]
      · constructor
        · rw [nameText_escapedText_cons s isEscape]
          exact headless isEscape
        · rw [escapedText_cons]
          split
          · next isEnd =>
              rw [nameText_escaped, nameText_end isEnd]
              intro read
              have tail := (List.cons.inj (Prod.mk.inj (Option.some.inj read)).1).2
              simp at tail
          · rw [nameText_escaped]
            exact headless isEscape

/-- What is read from an escaped name is the name if there is no backslash in it. -/
theorem nameText_escapedText_iff (s : GCstr) :
    nameText (escapedText s more) = some (s, ch ' ' :: more) ↔ ∀ c ∈ s, c ≠ ch '\\' := by
  constructor
  · intro read
    induction s with
    | nil => exact fun c member => nomatch member
    | cons c s induction =>
        by_cases isEscape : c = ch '\\'
        · subst isEscape
          rw [escapedText_cons, if_neg (by decide)] at read
          exact absurd read (nameText_backslash s 0).2
        · rw [nameText_escapedText_cons s isEscape] at read
          obtain ⟨⟨name, after⟩, isText, same⟩ := Option.map_eq_some_iff.mp read
          cases same
          intro c' member
          rcases List.mem_cons.mp member with rfl | member
          · exact isEscape
          · exact induction isText c' member
  · exact nameText_escapedText

end Escape

theorem lineBreaks_eq_zero_iff (s : GCstr) : lineBreaks s = 0 ↔ ∀ c ∈ s, isEolByte c = false := by
  induction s with
  | nil => simp [lineBreaks]
  | cons c s induction =>
      rw [lineBreaks.eq_def]
      by_cases isEol : isEolByte c = true
      · simp only [isEol, if_true, List.forall_mem_cons]
        constructor
        · intro none_
          split at none_
          · cases none_
          · split at none_ <;> cases none_
        · intro noEol
          cases noEol.1
      · simp [isEol, induction]

/-- The bytes no other kind of token starts with. -/
def namesByte (b : UInt8) : Bool :=
  b != ch '"' && b != ch ';' && !startsNumber (some b)

/-- The scanner reads the name `s` and stops at the space behind it, with the
lines of `s` counted. -/
def ReadsName [StrScan] (ls : Lexer) (s more : GCstr) : Prop :=
  ∃ enough, ∀ fuel ≥ enough, ∃ ls', ljLexNext fuel ls = .ok (.name s, ls') ∧
    ls'.rest = ch ' ' :: more ∧ ls'.linenumber = ls.linenumber + lineBreaks s

theorem startsName_escapedText {b : UInt8} (s : GCstr) {more : GCstr} (starts : namesByte b = true) :
    startsName (escapedText (b :: s) more).head? = true := by
  simp only [namesByte, Bool.and_eq_true, bne_iff_ne, ne_eq, Bool.not_eq_true'] at starts
  rw [escapedText_cons]
  split
  · rfl
  · next notEnd =>
      simp [startsName, starts.1.1, starts.1.2, starts.2, notEnd]

/-- A call at the first byte of a name is `lex_name`. -/
theorem nextLoop_name [StrScan] {steps fuel : Nat} (starts : startsName ls.c = true) :
    nextLoop steps (fuel + 1) ls = ls.name steps := by
  simp only [startsName, Bool.and_eq_true, bne_iff_ne, ne_eq, Bool.not_eq_true'] at starts
  obtain ⟨⟨⟨⟨notEof, notEnd⟩, notComment⟩, notQuote⟩, notNumber⟩ := starts
  have notByte (b : UInt8) (isEnd : endsName (some b) = true) : ls.c ≠ some b := by
    intro same
    rw [same, isEnd] at notEnd
    cases notEnd
  have notEol : ls.iseol = false := by
    simp [iseol, notByte (ch '\n') rfl, notByte (ch '\r') rfl]
  have notBlank : isBlank ls.c = false := by
    simp [isBlank, notByte (ch ' ') rfl, notByte (ch '\t') rfl, notByte 11 rfl, notByte 12 rfl]
  rw [nextLoop, notEol, notBlank, notNumber, if_neg (by decide), if_neg (by decide),
    if_neg notComment, if_neg (notByte _ rfl), if_neg (notByte _ rfl), if_neg (notByte _ rfl),
    if_neg notQuote, if_neg (by decide), if_neg notEof]

/-- Which name the scanner reads is decided by the text alone. -/
theorem readsName_iff [StrScan] {name more : GCstr} (starts : startsName ls.c = true) :
    ls.ReadsName name more ↔
      nameText ls.rest = some (name, ch ' ' :: more) ∧ lineBreaks name = 0 := by
  let start : Lexer := { ls with lastline := ls.linenumber, sb := [] }
  have call (fuel : Nat) : ljLexNext (fuel + 1) ls = (do
      let ls' ← nameLoop (fuel + 1) start
      return (.name ls'.sb, { ls' with tok := some .name })) := by
    have startsHere : startsName start.c = true := starts
    rw [ljLexNext, nextLoop_name startsHere, Lexer.name]
    cases nameLoop (fuel + 1) start <;> rfl
  constructor
  · rintro ⟨enough, reads⟩
    obtain ⟨ls', called, isRest, line⟩ := reads (enough + start.rest.length + 1) (by omega)
    rw [call] at called
    cases isText : nameText start.rest with
    | none =>
        have cut : nameEnds start.rest = false := by rw [nameEnds_iff, isText]; rfl
        rw [nameLoop_never cut] at called
        cases called
    | some read =>
        have short : start.rest.length < enough + start.rest.length + 1 := by omega
        obtain ⟨ls₁, loop, rest₁, sb₁, line₁⟩ := nameLoop_eq isText short
        rw [loop] at called
        have returned : (Token.name ls₁.sb, { ls₁ with tok := some .name }) =
            (Token.name name, ls') := Except.ok.inj called
        obtain ⟨isName, rfl⟩ := Prod.mk.inj returned
        have sameName : read.1 = name := sb₁.symm.trans (Token.name.inj isName)
        have sameRest : read.2 = ch ' ' :: more := rest₁.symm.trans isRest
        have noLines : ls.linenumber = ls.linenumber + lineBreaks name := line₁.symm.trans line
        rw [← sameName, ← sameRest] at *
        exact ⟨isText, by lia⟩
  · rintro ⟨isText, noLines⟩
    refine ⟨start.rest.length + 1, fun fuel enough => ?_⟩
    have startText : nameText start.rest = some (name, ch ' ' :: more) := isText
    obtain ⟨ls', loop, isRest, sb, line⟩ := nameLoop_eq startText enough
    cases fuel with
    | zero => cases enough
    | succ fuel =>
        refine ⟨{ ls' with tok := some .name }, ?_, isRest, ?_⟩
        · rw [call, loop]
          change Except.ok (Token.name ls'.sb, _) = _
          rw [sb]
          rfl
        · rw [noLines]
          exact line.trans (add_zero _).symm

/-- The scanner undoes `tvm.escape` exactly for names without a backslash and
without a line break. -/
theorem escape_read_back_iff [StrScan] (ls : Lexer) (b : UInt8) (s t more : GCstr)
    (starts : namesByte b = true) (escaped : tvmEscape (b :: s) = .ok t)
    (text : ls.rest = t ++ ch ' ' :: more) :
    ls.ReadsName (b :: s) more ↔ ∀ c ∈ b :: s, c ≠ ch '\\' ∧ isEolByte c = false := by
  obtain ⟨rfl, -⟩ := pushresult_eq_ok escaped
  change ls.rest = escapedText (b :: s) more at text
  have startsHere : startsName ls.c = true := by
    rw [c_eq_head?, text]
    exact startsName_escapedText s starts
  rw [readsName_iff startsHere, text, nameText_escapedText_iff, lineBreaks_eq_zero_iff, forall₂_and]

/-- `a(b`, escaped as `a\(b`. -/
theorem escape_read_back_paren :
    @ReadsName noNumbers { input := .char (ch 'a') [ch '\\', ch '(', ch 'b', ch ' '] [] }
        [ch 'a', ch '(', ch 'b'] [] ↔
      ∀ c ∈ [ch 'a', ch '(', ch 'b'], c ≠ ch '\\' ∧ isEolByte c = false :=
  @escape_read_back_iff noNumbers _ (ch 'a') [ch '(', ch 'b'] _ [] (by decide) rfl rfl

/-- The name `a\b` is escaped as it is and read back as `ab`. -/
theorem escape_backslash_lost :
    ¬∀ (_ : StrScan) (ls : Lexer) (b : UInt8) (s t more : GCstr), namesByte b = true →
      tvmEscape (b :: s) = .ok t → ls.rest = t ++ ch ' ' :: more → ls.ReadsName (b :: s) more := by
  intro claim
  let ls : Lexer := { input := .char (ch 'a') [ch '\\', ch 'b', ch ' '] [] }
  have reads := @claim noNumbers ls (ch 'a') [ch '\\', ch 'b'] _ [] (by decide) rfl rfl
  have isText := (@readsName_iff ls noNumbers _ _ (by decide)).mp reads
  exact absurd isText.1 (by decide)

end Lexer

end TvmJit
