import TvmJit.Lex.Ending
import TvmJit.Lex.Reader

/-! Where the two TP scanners, `lj_lex_next` and `P:next`, read the same tokens. -/

namespace TvmJit

/-- Both calls return related values, or neither returns: both raise an error or
both run for ever. -/
def Agrees {α β : Type} (rel : α → β → Prop) (r : Except LexError α) (r' : Except ReaderError β) :
    Prop :=
  match r, r' with
  | .ok a, .ok b => rel a b
  | .error e, .error e' => e = .outOfFuel ↔ e' = .outOfFuel
  | _, _ => False

namespace Agrees

variable {α β α' β' : Type} {rel : α → β → Prop} {rel' : α' → β' → Prop}

theorem bind {r : Except LexError α} {r' : Except ReaderError β} {next : α → Except LexError α'}
    {next' : β → Except ReaderError β'} (first : Agrees rel r r')
    (rest : ∀ a b, rel a b → Agrees rel' (next a) (next' b)) :
    Agrees rel' (r >>= next) (r' >>= next') := by
  cases r with
  | ok a =>
      cases r' with
      | ok b => exact rest a b first
      | error e' => cases first
  | error e =>
      cases r' with
      | ok b => cases first
      | error e' => exact first

theorem mono {rel' : α → β → Prop} {r : Except LexError α} {r' : Except ReaderError β}
    (agrees : Agrees rel r r') (implies : ∀ a b, rel a b → rel' a b) : Agrees rel' r r' := by
  cases r with
  | ok a =>
      cases r' with
      | ok b => exact implies a b agrees
      | error e' => cases agrees
  | error e =>
      cases r' with
      | ok b => cases agrees
      | error e' => exact agrees

theorem errors (ls : Lexer) (p : P) (tok : Option LexToken) (em : LexErrMsg) (msg : String)
    (token : LexToken) : Agrees rel (ls.error tok em) (p.lexerror msg token) :=
  ⟨(nomatch ·), (nomatch ·)⟩

end Agrees

/-! ## States that correspond -/

namespace Lexer

theorem lineBreaks_le_cons (b : UInt8) (rest : GCstr) :
    lineBreaks rest ≤ lineBreaks (b :: rest) ∧ lineBreaks (b :: rest) ≤ lineBreaks rest + 1 := by
  induction rest generalizing b with
  | nil =>
      rw [lineBreaks, lineBreaks]
      split
      · exact ⟨Nat.zero_le 1, le_rfl⟩
      · exact ⟨le_rfl, Nat.le_succ _⟩
  | cons c rest induction =>
      rw [lineBreaks]
      split
      · split
        · exact ⟨(induction c).2, Nat.succ_le_succ (induction c).1⟩
        · exact ⟨Nat.le_succ _, le_rfl⟩
      · exact ⟨le_rfl, Nat.le_succ _⟩

theorem lineBreaks_suffix {bytes rest : GCstr} (isSuffix : rest <:+ bytes) :
    lineBreaks rest ≤ lineBreaks bytes := by
  obtain ⟨front, rfl⟩ := isSuffix
  induction front with
  | nil => exact le_rfl
  | cons b front induction => exact induction.trans (lineBreaks_le_cons b (front ++ rest)).1

theorem lineBreaks_pastEol {ls : Lexer} (isEol : ls.iseol = true) :
    lineBreaks ls.rest = lineBreaks ls.pastEol.rest + 1 := by
  obtain ⟨b, isChar⟩ := iseol_c isEol
  rw [iseol_eq isChar] at isEol
  rw [rest_eq_cons isChar, pastEol]
  cases second : ls.next.c with
  | none =>
      have atEnd : ls.rest.tail = [] := by
        rwa [c_eq_head?, rest_next, List.head?_eq_none_iff] at second
      rw [if_neg (by simp [iseol, second]), rest_next, atEnd]
      exact if_pos isEol
  | some c =>
      have shape := rest_eq_cons second
      rw [rest_next] at shape
      have differs : (some c != some b) = (c != b) := rfl
      rw [iseol_eq second, isChar, shape, lineBreaks, if_pos isEol, differs]
      split
      · rw [rest_next, rest_next, shape, List.tail_cons]
      · rw [rest_next, ← shape]

end Lexer

/-- The two scanners are at the same place. The line breaks left are too few to
reach the limit on lines, which only one of them has. -/
structure Same (ls : Lexer) (p : P) : Prop where
  rest : ls.rest = p.z
  sb : ls.sb = p.buff
  linenumber : ls.linenumber = p.linenumber
  lastline : ls.lastline = p.lastline
  few : ls.linenumber + Lexer.lineBreaks ls.rest < LJ_MAX_LINE

namespace Same

variable {ls : Lexer} {p : P} (same : Same ls p)

include same

theorem c : p.current = ls.c := by
  rw [ls.c_eq_head?, same.rest]
  rfl

theorem next : Same ls.next p.next_ where
  rest := by rw [Lexer.rest_next, same.rest]; rfl
  sb := same.sb
  linenumber := same.linenumber
  lastline := same.lastline
  few := by
    have few := same.few
    have fewer := Lexer.lineBreaks_suffix (Lexer.before_next ls)
    change ls.linenumber + Lexer.lineBreaks ls.next.rest < LJ_MAX_LINE
    lia

theorem save (bytes : GCstr) : Same { ls with sb := ls.sb ++ bytes } (p.save bytes) where
  rest := same.rest
  sb := by rw [same.sb]; rfl
  linenumber := same.linenumber
  lastline := same.lastline
  few := same.few

theorem savenext {b : UInt8} (isChar : ls.c = some b) : Same ls.savenext p.saveAndNext := by
  have saved := (same.save [b]).next
  rw [Lexer.savenext, Lexer.save, isChar, P.saveAndNext, same.c, isChar]
  exact saved

theorem escaped (bytes : GCstr) : Same (ls.escaped bytes) (p.next_.save bytes) :=
  (same.save bytes).next

end Same

/-! ## Character classes -/

theorem find_newline_eq (c : LexChar) : find newline c = c.any Lexer.isEolByte := by
  rw [newline_bytes]
  cases c with
  | none => rfl
  | some b => simp [find, Lexer.isEolByte, ch, beq_eq_decide]

theorem find_newline (ls : Lexer) : find newline ls.c = ls.iseol := by
  rw [find_newline_eq, Lexer.iseol]
  cases ls.c with
  | none => rfl
  | some b => rfl

theorem find_space (c : LexChar) : find space c = Lexer.isBlank c := by
  cases c with
  | none => rfl
  | some b =>
      simp only [find, space, Lexer.isBlank, ch]
      grind

theorem find_digitSign (c : LexChar) : find digitSign c = Lexer.startsNumber c := by
  rw [digitSign_bytes]
  cases c with
  | none => rfl
  | some b =>
      have digits : (48 ≤ b ∧ b ≤ 57) ↔ b = 48 ∨ b = 49 ∨ b = 50 ∨ b = 51 ∨ b = 52 ∨ b = 53 ∨
          b = 54 ∨ b = 55 ∨ b = 56 ∨ b = 57 := by
        simp only [UInt8.le_iff_toNat_le, ← UInt8.toNat_inj, UInt8.reduceToNat]
        omega
      simp only [find, Lexer.startsNumber, ch, Option.any_some, List.contains_eq_mem, List.mem_cons]
      grind

theorem find_notName (c : LexChar) : find notName c = Lexer.endsName c := by
  rw [notName_bytes]
  cases c with
  | none => rfl
  | some b =>
      simp only [find, Lexer.endsName, ch, Option.any_some, List.contains_eq_mem, List.mem_cons]
      grind

/-! ## Line breaks, comments and names -/

namespace Lexer

variable {ls : Lexer} {p : P}

theorem newline_agrees (same : Same ls p) (isEol : ls.iseol = true) :
    ∃ ls', ls.newline = .ok ls' ∧ Same ls' p.inclinenumber ∧ ls'.rest = ls.pastEol.rest := by
  have past : Same ls.pastEol (if find TvmJit.newline p.next_.current && p.next_.current != p.current
      then p.next_.next_ else p.next_) := by
    unfold pastEol
    rw [same.next.c, same.c, find_newline]
    split
    · exact same.next.next
    · exact same.next
  have breaks := lineBreaks_pastEol isEol
  have few := same.few
  rw [newline_eq, linenumber_pastEol, if_neg (by lia)]
  refine ⟨_, rfl, ⟨past.rest, past.sb, ?_, past.lastline, ?_⟩, rfl⟩
  · exact congrArg (· + 1) ((linenumber_pastEol ls).symm.trans past.linenumber)
  · change ls.linenumber + 1 + (lineBreaks ls.pastEol.rest : Int) < LJ_MAX_LINE
    lia

theorem comment_agrees {fuel : Nat} (same : Same ls p) :
    Agrees (fun ls' p' => Same ls' p' ∧ ls.Before ls') (comment fuel ls) (p.comment fuel) := by
  induction fuel generalizing ls p with
  | zero => exact ⟨fun _ => rfl, fun _ => rfl⟩
  | succ fuel induction =>
      rw [comment, P.comment, same.c, find_newline]
      by_cases more : (!ls.iseol && ls.c != none) = true
      · rw [if_pos more, if_pos more]
        exact (induction same.next).mono fun ls' p' after => ⟨after.1, (before_next ls).trans after.2⟩
      · rw [if_neg more, if_neg more]
        exact ⟨same, .refl ls⟩

theorem P.nameLoop_eof {fuel : Nat} {p : P} (eof : p.z = []) :
    p.nameLoop fuel = .error .outOfFuel := by
  induction fuel generalizing p with
  | zero => rfl
  | succ fuel induction =>
      have isEof : p.current = none := by rw [P.current, eof]; rfl
      rw [P.nameLoop, isEof]
      exact induction (by rw [P.saveAndNext, P.next_]; exact congrArg List.tail eof)

theorem nameLoop_agrees {fuel : Nat} (same : Same ls p) :
    Agrees Same (nameLoop fuel ls) (p.nameLoop fuel) := by
  induction fuel generalizing ls p with
  | zero => exact ⟨fun _ => rfl, fun _ => rfl⟩
  | succ fuel induction =>
      have forEver {ls : Lexer} {p : P} (cut : ls.rest = []) (cut' : p.z = []) :
          Agrees Same (nameLoop fuel ls) (p.nameLoop fuel) := by
        rw [nameLoop_never (by rw [cut]; rfl), P.nameLoop_eof cut']
        exact ⟨fun _ => rfl, fun _ => rfl⟩
      rw [nameLoop, P.nameLoop, same.c, find_notName]
      by_cases ended : endsName ls.c = true
      · rw [if_pos ended, if_pos ended]
        exact same
      · rw [if_neg ended, if_neg ended]
        by_cases isEscape : ls.c = some (ch '\\')
        · rw [if_pos isEscape, if_pos isEscape]
          cases isChar : ls.next.c with
          | some b => exact induction (same.next.savenext isChar)
          | none =>
              rw [c_eq_head?, List.head?_eq_none_iff] at isChar
              have cut : ls.next.savenext.rest = [] := by rw [rest_savenext, isChar]; rfl
              have cut' : p.next_.saveAndNext.z = [] := by
                change p.next_.z.tail = []
                rw [← same.next.rest, isChar]
                rfl
              exact forEver cut cut'
        · rw [if_neg isEscape, if_neg isEscape]
          cases isChar : ls.c with
          | some b => exact induction (same.savenext isChar)
          | none =>
              rw [c_eq_head?, List.head?_eq_none_iff] at isChar
              have cut : ls.savenext.rest = [] := by rw [rest_savenext, isChar]; rfl
              have cut' : p.saveAndNext.z = [] := by
                change p.z.tail = []
                rw [← same.rest, isChar]
                rfl
              exact forEver cut cut'

/-! ## Strings -/

theorem hexDigit_value (b : UInt8) :
    (if ljCharIsdigit (some b) then some (b &&& 15).toNat
      else if ljCharIsxdigit (some b) then some ((b &&& 15).toNat + 9) else none) =
      if find xdigit (some b) then some (P.hexValue b) else none := by
  by_cases digit : find xdigit (some b) = true
  · rw [if_pos digit]
    exact find_forall xdigit_bytes digit (by decide)
  · have notHex : ¬ljCharIsxdigit (some b) = true := by
      rw [xdigit_bytes] at digit
      rw [ljCharIsxdigit_byte]
      refine mt ?_ digit
      exact byte_forall b (by decide +kernel)
    have notDecimal : ¬ljCharIsdigit (some b) = true := by
      rw [ljCharIsxdigit_byte] at notHex
      rw [ljCharIsdigit_byte]
      exact fun decimal => notHex (by simp [decimal])
    rw [if_neg digit, if_neg notDecimal, if_neg notHex]

theorem hexValue_lt (b : UInt8) (digit : find xdigit (some b) = true) : P.hexValue b < 16 :=
  find_forall xdigit_bytes digit (by decide)

theorem hexDigits_succ (n value : Nat) (ls : Lexer) :
    hexDigits (n + 1) value ls =
      if find xdigit ls.next.c then
        hexDigits n (value * 16 + P.hexValue (ls.next.c.getD 0)) ls.next
      else ls.next.error (some .string) .xesc := by
  rw [hexDigits.eq_def]
  dsimp only
  cases isChar : ls.next.c with
  | none => rfl
  | some b =>
      have value_eq := hexDigit_value b
      change (if ljCharIsdigit (some b) then hexDigits n (value * 16 + (b &&& 15).toNat) ls.next
        else if ljCharIsxdigit (some b) then
          hexDigits n (value * 16 + ((b &&& 15).toNat + 9)) ls.next
        else ls.next.error (some .string) .xesc) =
        if find xdigit (some b) then hexDigits n (value * 16 + P.hexValue b) ls.next
        else ls.next.error (some .string) .xesc
      by_cases digit : find xdigit (some b) = true
      · rw [if_pos digit] at value_eq ⊢
        split at value_eq
        · next decimal => rw [if_pos decimal, Option.some.inj value_eq]
        · next notDecimal =>
            split at value_eq
            · next hex => rw [if_neg notDecimal, if_pos hex, Option.some.inj value_eq]
            · cases value_eq
      · rw [if_neg digit] at value_eq ⊢
        split at value_eq
        · cases value_eq
        · next notDecimal =>
            split at value_eq
            · cases value_eq
            · next notHex => rw [if_neg notDecimal, if_neg notHex]

theorem gethexa_eq (p : P) :
    p.gethexa =
      if find xdigit p.next_.current then .ok (P.hexValue (p.next_.current.getD 0), p.next_)
      else p.next_.lexerror "hexadecimal digit expected" .string := by
  unfold P.gethexa
  dsimp only
  cases p.next_.current with
  | none => rfl
  | some b => rfl

/-- The bytes of a string up to its end have none of the escapes only one of the
scanners has: `\\U` and a backslash before a line break. -/
def plainString : GCstr → Bool
  | [] => true
  | b :: rest =>
      if b = ch '"' then true
      else if b = ch '\\' then
        match rest with
        | [] => true
        | c :: rest => c != ch 'U' && !isEolByte c && plainString rest
      else plainString rest

theorem plainString_cons (b : UInt8) (rest : GCstr) :
    plainString (b :: rest) =
      if b = ch '"' then true
      else if b = ch '\\' then
        match rest with
        | [] => true
        | c :: rest => c != ch 'U' && !isEolByte c && plainString rest
      else plainString rest :=
  plainString.eq_def (b :: rest)

theorem plainString_xdigit {b : UInt8} (digit : find xdigit (some b) = true) (rest : GCstr) :
    plainString (b :: rest) = plainString rest := by
  have other : b ≠ ch '"' ∧ b ≠ ch '\\' := find_forall xdigit_bytes digit (by decide)
  rw [plainString_cons, if_neg other.1, if_neg other.2]

/-- The state in a string: after this character it goes on without the escapes
the scanners differ in. -/
structure SameString (ls : Lexer) (p : P) : Prop extends Same ls p where
  plain : plainString ls.rest.tail = true

theorem SameString.next (same : SameString ls p) {b : UInt8} (isChar : ls.next.c = some b)
    (digit : find xdigit (some b) = true) : SameString ls.next p.next_ where
  toSame := same.toSame.next
  plain := by
    have plain := same.plain
    have shape := rest_eq_cons isChar
    rw [rest_next] at shape ⊢
    rw [shape, plainString_xdigit digit] at plain
    exact plain

/-- One hexadecimal digit. -/
theorem gethexa_agrees {n value : Nat} {α β : Type} {rel : α → β → Prop}
    {next : Nat × Lexer → Except LexError α} {next' : Nat × P → Except ReaderError β}
    (same : SameString ls p)
    (rest : ∀ digit < 16, SameString ls.next p.next_ → ls.Before ls.next →
      Agrees rel (hexDigits n (value * 16 + digit) ls.next >>= next) (next' (digit, p.next_))) :
    Agrees rel (hexDigits (n + 1) value ls >>= next) (p.gethexa >>= next') := by
  rw [hexDigits_succ, gethexa_eq, same.toSame.next.c]
  by_cases digit : find xdigit ls.next.c = true
  · rw [if_pos digit, if_pos digit]
    cases isChar : ls.next.c with
    | none => rw [isChar] at digit; cases digit
    | some b =>
        rw [isChar] at digit
        exact rest _ (hexValue_lt b digit) (same.next isChar digit) (before_next ls)
  · rw [if_neg digit, if_neg digit]
    exact ⟨(nomatch ·), (nomatch ·)⟩

/-- The state after an escape. -/
def SameAfter (ls ls' : Lexer) (p' : P) : Prop :=
  Same ls' p' ∧ ls.Before ls' ∧ plainString ls'.rest = true

theorem SameString.escaped (same : SameString ls p) {from_ : Lexer} (before : from_.Before ls)
    (bytes : GCstr) : SameAfter from_ (ls.escaped bytes) (p.next_.save bytes) :=
  ⟨same.toSame.escaped bytes, before.trans (before_escaped ls bytes), by
    rw [rest_escaped]
    exact same.plain⟩

theorem wchar_uescape {value : Nat} (small : value < 0x10000) :
    tvmWchar [(value : Int)] = .ok (uescapeBytes value) := by
  have bytes : wcharBytes value = uescapeBytes value := by
    have below (limit : Nat) (high : 0x10000 ≤ limit) : ¬value ≥ limit := by omega
    unfold wcharBytes uescapeBytes
    rw [if_neg (below 0x10000 (by decide)), if_neg (below 0x80000000 (by decide)),
      if_neg (below 0x4000000 (by decide)), if_neg (below 0x200000 (by decide))]
  have valid : ¬((value : Int) < 0 ∨ (value : Int) > 0x10FFFF) := by omega
  rw [tvmWchar, tvmWcharFrom, if_neg valid, ← bytes]
  exact congrArg Except.ok (List.append_nil _)

theorem escape_agrees (same : SameString ls p) {c : UInt8} (isChar : ls.c = some c)
    (notLong : c ≠ ch 'U') (notEol : isEolByte c = false) :
    Agrees (SameAfter ls) ls.escape p.escape := by
  have notBreak : ¬(c = ch '\n' ∨ c = ch '\r') := by
    simpa [isEolByte] using notEol
  unfold escape P.escape
  rw [same.c, isChar]
  dsimp only
  cases simpleEscape c with
  | some b => exact same.escaped (.refl ls) [b]
  | none =>
      dsimp only
      rw [if_neg notLong, if_neg notBreak]
      by_cases isHex : c = ch 'x'
      · rw [if_pos isHex, if_pos isHex, P.readhexaesc]
        simp only [bind_assoc, pure_bind]
        refine gethexa_agrees same fun d₁ _ same before => ?_
        refine gethexa_agrees same fun d₂ _ same before' => ?_
        have value : (0 * 16 + d₁) * 16 + d₂ = 16 * d₁ + d₂ := by omega
        rw [value]
        exact same.escaped (before.trans before') _
      · rw [if_neg isHex, if_neg isHex]
        by_cases isUnicode : c = ch 'u'
        · rw [if_pos isUnicode, if_pos isUnicode, P.readuniesc]
          simp only [bind_assoc]
          refine gethexa_agrees same fun d₁ small₁ same before₁ => ?_
          refine gethexa_agrees same fun d₂ small₂ same before₂ => ?_
          refine gethexa_agrees same fun d₃ small₃ same before₃ => ?_
          refine gethexa_agrees same fun d₄ small₄ same before₄ => ?_
          have value : (((0 * 16 + d₁) * 16 + d₂) * 16 + d₃) * 16 + d₄ =
              16 * (16 * (16 * d₁ + d₂) + d₃) + d₄ := by omega
          rw [value]
          dsimp only
          rw [wchar_uescape (by omega)]
          exact same.escaped (before₁.trans (before₂.trans (before₃.trans before₄))) _
        · rw [if_neg isUnicode, if_neg isUnicode]
          exact Agrees.errors _ _ _ _ _ _

theorem plainString_pastEol (plain : plainString ls.rest.tail = true) :
    plainString ls.pastEol.rest = true := by
  unfold pastEol
  split
  · next pair =>
      have isEol : ls.next.iseol = true := (Bool.and_eq_true_iff.mp pair).1
      obtain ⟨b, isChar⟩ := iseol_c isEol
      have other : isEolByte b = true → b ≠ ch '"' ∧ b ≠ ch '\\' :=
        byte_forall b (by decide +kernel)
      have ⟨notQuote, notEscape⟩ := other ((iseol_eq isChar).symm.trans isEol)
      have shape := rest_eq_cons isChar
      rw [rest_next] at shape
      rw [shape, plainString_cons, if_neg notQuote, if_neg notEscape] at plain
      rwa [rest_next, rest_next]
  · rwa [rest_next]

theorem stringLoop_agrees {fuel : Nat} (same : Same ls p) (plain : plainString ls.rest = true) :
    Agrees (fun ls' p' => Same ls' p' ∧ ls.Before ls' ∧ ls'.c = some (ch '"')) (stringLoop fuel ls)
      (p.stringLoop fuel) := by
  induction fuel generalizing ls p with
  | zero => exact ⟨fun _ => rfl, fun _ => rfl⟩
  | succ fuel induction =>
      have continued {ls' : Lexer} {p' : P} (before : ls.Before ls') (same : Same ls' p')
          (plain : plainString ls'.rest = true) :
          Agrees (fun ls' p' => Same ls' p' ∧ ls.Before ls' ∧ ls'.c = some (ch '"'))
            (stringLoop fuel ls') (p'.stringLoop fuel) :=
        (induction same plain).mono fun _ _ after => ⟨after.1, before.trans after.2.1, after.2.2⟩
      rw [stringLoop, P.stringLoop, same.c, find_newline]
      by_cases isEnd : ls.c = some (ch '"')
      · rw [if_pos isEnd, if_pos isEnd]
        exact ⟨same, .refl ls, isEnd⟩
      · rw [if_neg isEnd, if_neg isEnd]
        cases isChar : ls.c with
        | none =>
            rw [if_pos rfl, if_pos rfl]
            exact Agrees.errors _ _ _ _ _ _
        | some b =>
            have notQuote : b ≠ ch '"' := fun isQuote => isEnd (by rw [isChar, isQuote])
            rw [if_neg (Option.some_ne_none b), if_neg (Option.some_ne_none b)]
            rw [rest_eq_cons isChar, plainString_cons, if_neg notQuote] at plain
            by_cases isEscape : b = ch '\\'
            · rw [if_pos isEscape] at plain
              rw [if_pos (congrArg some isEscape), if_pos (congrArg some isEscape)]
              cases isNext : ls.next.c with
              | none =>
                  have atEnd : ls.next.rest = [] := by
                    rwa [c_eq_head?, List.head?_eq_none_iff] at isNext
                  have escapes : ls.next.escape = .ok ls.next := by rw [escape, isNext]
                  have escapes' : p.next_.escape = .ok p.next_ := by
                    rw [P.escape, same.next.c, isNext]
                  rw [escapes, escapes']
                  exact continued (before_next ls) same.next (by rw [atEnd]; rfl)
              | some c =>
                  have shape := rest_eq_cons isNext
                  rw [rest_next] at shape
                  rw [shape] at plain
                  simp only [Bool.and_eq_true, bne_iff_ne, Bool.not_eq_true'] at plain
                  obtain ⟨⟨notLong, notEol⟩, plain⟩ := plain
                  have sameNext : SameString ls.next p.next_ :=
                    ⟨same.next, by rwa [rest_next]⟩
                  exact (escape_agrees sameNext isNext notLong notEol).bind fun ls' p' after =>
                    continued ((before_next ls).trans after.2.1) after.1 after.2.2
            · have notEscape : some b ≠ some (ch '\\') := fun same => isEscape (Option.some.inj same)
              rw [if_neg isEscape] at plain
              rw [if_neg notEscape, if_neg notEscape]
              by_cases isEol : ls.iseol = true
              · rw [if_pos isEol, if_pos isEol]
                obtain ⟨ls', past, after, rest⟩ := newline_agrees same isEol
                have before : ls.Before ls' := by
                  rw [Before, rest]
                  exact (pastEol_before isEol).1
                rw [past]
                refine continued before (after.save [ch '\n']) ?_
                change plainString ls'.rest = true
                rw [rest]
                exact plainString_pastEol plain
              · rw [if_neg isEol, if_neg isEol]
                exact continued (before_savenext ls) (same.savenext isChar) (by rwa [rest_savenext])

end Lexer

end TvmJit
