import TvmJit.Lua.Lexer
import TvmJit.Lex.Numerals
import TvmJit.Foundation.Ends

/-! Lua numerals that are handed on as they stand: what `L:_read_numeral` takes, and what
`lj_lex_next` makes of the same bytes. -/

namespace TvmJit

/-! ## More fuel than is used up -/

namespace P

theorem numeralLoop_succ {expo : GCstr} {fuel : Nat} {p p' : P}
    (run : p.numeralLoop expo fuel = .ok p') :
    p.numeralLoop expo (fuel + 1) = .ok p' := by
  induction fuel generalizing p with
  | zero => cases run
  | succ fuel induction =>
      rw [P.numeralLoop] at run ⊢
      generalize p.checkNext expo = checked at run ⊢
      obtain ⟨isExpo, q⟩ := checked
      dsimp only at run ⊢
      split
      · next taken =>
          rw [if_pos taken] at run
          exact induction run
      · next other =>
          rw [if_neg other] at run
          split
          · next more =>
              rw [if_pos more] at run
              exact induction run
          · next ended =>
              rw [if_neg ended] at run
              exact run

theorem numeralLoop_enough {expo : GCstr} {fuel : Nat} {p p' : P}
    (run : p.numeralLoop expo fuel = .ok p') (more : Nat) :
    p.numeralLoop expo (fuel + more) = .ok p' := by
  induction more with
  | zero => exact run
  | succ more induction => exact numeralLoop_succ induction

end P

namespace L

variable {l l' : L} {fuel steps : Nat}

/-! ## The numeral as `P` would take it -/

/-- The scanner of `parse.lua` in the same place. -/
def reader (l : L) : P := { z := l.z, buff := l.text }

@[simp] theorem reader_current (l : L) : l.reader.current = l.current := rfl

theorem reader_saveAndNext (l : L) : l.saveAndNext.reader = l.reader.saveAndNext := by
  have joined (c : GCstr) : (l.buff ++ [c]).flatten = l.buff.flatten ++ c := by
    rw [List.flatten_concat]
  rw [reader, text, saveAndNext, save, next_, joined]
  rfl

theorem reader_checkNext2 (l : L) (set : GCstr) :
    l.reader.checkNext set = ((l.checkNext2 set).1, (l.checkNext2 set).2.reader) := by
  rw [P.checkNext, checkNext2, reader_current]
  by_cases found : find set l.current = true
  · rw [if_pos found, if_pos found, reader_saveAndNext]
  · rw [if_neg found, if_neg found]

theorem checkNext2_linenumber (l : L) (set : GCstr) :
    (l.checkNext2 set).2.linenumber = l.linenumber := by
  rw [checkNext2]
  split
  · rfl
  · rfl

/-- The loops of the two scanners go on together. -/
theorem reader_numeralLoop (l : L) (expo : GCstr) :
    (∃ l', l.numeralLoop expo fuel = .ok l' ∧ l.reader.numeralLoop expo fuel = .ok l'.reader ∧
      l'.linenumber = l.linenumber) ∨
    l.numeralLoop expo fuel = .error .outOfFuel ∧ l.reader.numeralLoop expo fuel = .error .outOfFuel := by
  induction fuel generalizing l with
  | zero => exact .inr ⟨rfl, rfl⟩
  | succ fuel induction =>
      have line := checkNext2_linenumber l expo
      rw [numeralLoop, P.numeralLoop, reader_checkNext2, reader_current]
      generalize l.checkNext2 expo = checked at line ⊢
      obtain ⟨isExpo, q⟩ := checked
      dsimp only at line ⊢
      split
      · rw [reader_checkNext2]
        have rest := induction (q.checkNext2 sign).2
        rw [checkNext2_linenumber, line] at rest
        exact rest
      · split
        · rw [← reader_saveAndNext]
          exact induction l.saveAndNext
        · exact .inl ⟨l, rfl, rfl, rfl⟩

theorem reader_prefix (l : L) :
    (if l.reader.current = some (ch '0') then
      l.reader.saveAndNext.checkNext (.ofString "Xx") else (false, l.reader.saveAndNext)) =
      Prod.map id reader (if l.current = some (ch '0') then
        l.saveAndNext.checkNext2 (.ofString "Xx") else (false, l.saveAndNext)) := by
  rw [← reader_saveAndNext, reader_checkNext2, apply_ite (Prod.map id reader)]
  rfl

/-- A numeral that was read is what was saved before it with the text of a number. -/
structure ReadNumeral [Tonumber] (l : L) (text : GCstr) (b : UInt8) (rest : GCstr) (val : Num) : Prop where
  bytes : l.z = b :: rest
  digit : find digit (some b) = true
  saved : text = l.text ++ (Lexer.bodyText b rest).1
  converted : Tonumber.tonumber text = some val

theorem prefix_linenumber (l : L) :
    (if l.current = some (ch '0') then l.saveAndNext.checkNext2 (.ofString "Xx")
      else (false, l.saveAndNext)).2.linenumber = l.linenumber := by
  split
  · exact checkNext2_linenumber l.saveAndNext _
  · rfl

/-- What `L:_read_numeral` does in front of a digit: it takes the text of a number, if its
loop ends. -/
theorem readNumeral_eq [Tonumber] {b : UInt8} {rest : GCstr} (bytes : l.z = b :: rest)
    (isDigit : find digit (some b) = true) :
    l.readNumeral steps = .error .outOfFuel ∧ steps ≤ l.z.length ∨
      ∃ l', l'.z = (Lexer.bodyText b rest).2 ∧ l'.text = l.text ++ (Lexer.bodyText b rest).1 ∧
        l'.linenumber = l.linenumber ∧ l.readNumeral steps =
          match Tonumber.tonumber l'.text with
          | some _ => .ok (.number l'.text, l')
          | none => l'.lexerror "malformed number" := by
  have isHead : l.current = some b := by
    rw [current, bytes]
    rfl
  have line := prefix_linenumber l
  have enough : l.reader.z.length < steps + l.z.length + 1 := by
    change l.z.length < _
    omega
  have body := Lexer.P.readBody_eq (p := l.reader) bytes enough
  have within (short : l.reader.z.length < steps) := Lexer.P.readBody_eq (p := l.reader) bytes short
  rw [ reader_prefix] at body within
  rw [readNumeral]
  dsimp only
  rw [isHead, isDigit]
  rw [isHead] at line body within
  generalize (if some b = some (ch '0') then l.saveAndNext.checkNext2 (.ofString "Xx")
    else (false, l.saveAndNext)) = checked at line body within ⊢
  obtain ⟨hex, q⟩ := checked
  have loop := @reader_numeralLoop steps q (if hex then .ofString "Pp" else .ofString "Ee")
  rcases loop with ⟨after, run, read, same⟩ | ⟨run, read⟩
  · right
    have more := P.numeralLoop_enough read (l.z.length + 1)
    have equal : Lexer.P.took l.reader (Lexer.bodyText b rest) = after.reader :=
      Except.ok.inj (Eq.trans (Eq.symm body) more)
    refine ⟨after, congrArg P.z equal.symm, congrArg P.buff equal.symm, same.trans line, ?_⟩
    change (numeralLoop (if hex then .ofString "Pp" else .ofString "Ee") steps q >>= _) = _
    rw [run]
    rfl
  · left
    refine ⟨?_, ?_⟩
    · change (numeralLoop (if hex then .ofString "Pp" else .ofString "Ee") steps q >>= _) = _
      rw [run]
      rfl
    · by_contra short
      have read' : P.numeralLoop (if hex then .ofString "Pp" else .ofString "Ee") steps q.reader = _ :=
        within (Nat.lt_of_not_le short)
      rw [read] at read'
      cases read'

theorem readNumeral_text [Tonumber] {t : Lexeme} (run : l.readNumeral steps = .ok (t, l')) :
    ∃ text b rest val, t = .number text ∧ ReadNumeral l text b rest val := by
  have isDigit : find digit l.current = true := by
    by_contra other
    rw [Bool.not_eq_true] at other
    rw [readNumeral] at run
    dsimp only at run
    rw [other] at run
    cases run
  cases bytes : l.z with
  | nil =>
      rw [current, bytes] at isDigit
      cases isDigit
  | cons b rest =>
      rw [current, bytes] at isDigit
      rcases @readNumeral_eq l steps _ b rest bytes isDigit with ⟨fails, -⟩ | ⟨after, -, saved, -, read⟩
      · rw [fails] at run
        cases run
      · rw [read] at run
        cases converted : Tonumber.tonumber after.text with
        | none =>
            rw [converted] at run
            cases run
        | some val =>
            rw [converted] at run
            cases run
            exact ⟨_, b, rest, val, rfl, bytes, isDigit, saved, converted⟩

/-! ## Where `L:_llex` reads a numeral -/

theorem inclinenumber_buff (run : l.inclinenumber = .ok l') : l'.buff = l.buff := by
  rw [inclinenumber] at run
  split at run
  · cases run
    dsimp only
    split <;> rfl
  · cases run

theorem shortComment_buff (run : l.shortComment fuel = .ok l') : l'.buff = l.buff := by
  induction fuel generalizing l with
  | zero => cases run
  | succ fuel induction =>
      rw [shortComment] at run
      split at run
      · exact induction (l := l.next_) run
      · cases run
        rfl

/-- Whatever a comment saves is given up again. -/
theorem comment_buff (fresh : l.buff = []) (run : l.comment fuel = .ok l') : l'.buff = [] := by
  rw [comment] at run
  split at run
  · cases separator : l.skipSep fuel with
    | error e =>
        rw [separator] at run
        cases run
    | ok read =>
        obtain ⟨sep, q⟩ := read
        rw [separator] at run
        change (if sep ≥ 0 then _ else _) = _ at run
        split at run
        · cases long : q.resetbuffer.readLongString fuel false sep with
          | error e =>
              rw [long] at run
              cases run
          | ok after =>
              rw [long] at run
              cases run
              rfl
        · cases run
          rfl
  · exact (shortComment_buff run).trans fresh

/-- A numeral that is returned was read with nothing or a point saved in front of it. -/
def FromNumeral [Tonumber] (steps : Nat) (r : Lexeme × L) : Prop :=
  ∀ text, r.1 = .number text →
    ∃ q : L, (q.buff = [] ∨ q.buff = [[ch '.']]) ∧ q.readNumeral steps = .ok r

/-- Nothing is said about errors. -/
def mayFail (_ : LuaLexError) : Prop := True

theorem FromNumeral.plain [Tonumber] (token : GCstr) (l : L) : FromNumeral steps (.plain token, l) :=
  fun _ isNumber => nomatch isNumber

theorem ends_mayFail {α : Type} {good : α → Prop} {r : Except LuaLexError α}
    (each : ∀ a, r = .ok a → good a) : Foundation.Ends good mayFail r := by
  cases r with
  | ok a => exact each a rfl
  | error e => trivial

theorem readNumeral_fromNumeral [Tonumber] (saved : l.buff = [] ∨ l.buff = [[ch '.']]) :
    Foundation.Ends (FromNumeral steps) mayFail (l.readNumeral steps) :=
  ends_mayFail fun _ read _ _ => ⟨l, saved, read⟩

theorem readDot_fromNumeral [Tonumber] (fresh : l.buff = []) (isDot : l.current = some (ch '.')) :
    Foundation.Ends (FromNumeral steps) mayFail (l.readDot steps) := by
  unfold readDot
  by_cases second : l.saveAndNext.current = some (ch '.')
  · rw [checkNext1, if_pos second]
    exact FromNumeral.plain _ _
  · rw [checkNext1, if_neg second]
    change Foundation.Ends _ _ (if (!find digit l.saveAndNext.current) = true then _ else _)
    apply Foundation.Ends.ite
    · exact fun _ => FromNumeral.plain _ _
    · intro isDigit
      apply readNumeral_fromNumeral
      right
      rw [saveAndNext, isDot, save, fresh]
      rfl

theorem readBracket_fromNumeral [Tonumber] : Foundation.Ends (FromNumeral steps) mayFail (l.readBracket steps) := by
  apply Foundation.Ends.bind (ends_mayFail fun _ _ => trivial)
  intro read _ _
  apply Foundation.Ends.ite
  · intro isLong
    apply Foundation.Ends.bind (ends_mayFail fun _ _ => trivial)
    exact fun _ _ _ _ isNumber => nomatch isNumber
  · intro notLong
    apply Foundation.Ends.ite
    · exact fun _ => trivial
    · exact fun _ => FromNumeral.plain _ _

theorem readString_fromNumeral [Tonumber] {del : UInt8} :
    Foundation.Ends (FromNumeral steps) mayFail (l.readString steps del) := by
  apply Foundation.Ends.bind (ends_mayFail fun _ _ => trivial)
  exact fun _ _ _ _ isNumber => nomatch isNumber

theorem readName_fromNumeral [Tonumber] : Foundation.Ends (FromNumeral steps) mayFail (l.readName steps) := by
  apply Foundation.Ends.bind (ends_mayFail fun _ _ => trivial)
  intro after _ _ text isNumber
  change (if _ then _ else _) = _ at isNumber
  split at isNumber
  · cases isNumber
  · cases isNumber

theorem operator_fromNumeral [Tonumber] {first : UInt8} {seconds : List UInt8} :
    Foundation.Ends (FromNumeral steps) mayFail (.ok (l.operator first seconds)) := by
  rw [operator]
  split
  · exact FromNumeral.plain _ _
  · exact FromNumeral.plain _ _

theorem llexLoop_fromNumeral [Tonumber] (fresh : l.buff = []) :
    Foundation.Ends (FromNumeral steps) mayFail (llexLoop steps fuel l) := by
  induction fuel generalizing l with
  | zero => trivial
  | succ fuel induction =>
      rw [llexLoop]
      cases isChar : l.current with
      | none => exact fun _ isNumber => nomatch isNumber
      | some c =>
          -- The cases are those of the loop, in its order.
          apply Foundation.Ends.ite
          · intro isLineEnd
            apply Foundation.Ends.bind (ends_mayFail fun _ past => (inclinenumber_buff past).trans fresh)
            exact fun _ _ cleared => induction cleared
          intro _
          apply Foundation.Ends.ite
          · exact fun _ => induction (l := l.next_) fresh
          intro _
          apply Foundation.Ends.ite
          · intro isHyphen
            apply Foundation.Ends.ite
            · exact fun _ => FromNumeral.plain _ _
            · intro second
              apply Foundation.Ends.bind (ends_mayFail fun _ past => comment_buff (l := l.next_.next_) fresh past)
              exact fun _ _ cleared => induction cleared
          intro _
          apply Foundation.Ends.ite (fun _ => readBracket_fromNumeral)
          intro _
          apply Foundation.Ends.ite (fun _ => operator_fromNumeral)
          intro _
          apply Foundation.Ends.ite (fun _ => operator_fromNumeral)
          intro _
          apply Foundation.Ends.ite (fun _ => operator_fromNumeral)
          intro _
          apply Foundation.Ends.ite (fun _ => operator_fromNumeral)
          intro _
          apply Foundation.Ends.ite (fun _ => operator_fromNumeral)
          intro _
          apply Foundation.Ends.ite (fun _ => operator_fromNumeral)
          intro _
          apply Foundation.Ends.ite (fun _ => readString_fromNumeral)
          intro _
          apply Foundation.Ends.ite (fun isDot => readDot_fromNumeral fresh (by rw [isChar, isDot]))
          intro _
          apply Foundation.Ends.ite (fun _ => readNumeral_fromNumeral (.inl fresh))
          intro _
          apply Foundation.Ends.ite (fun _ => readName_fromNumeral)
          exact fun _ => FromNumeral.plain _ _

/-- What `L:_llex` returns as a numeral is the text of a number, perhaps behind a point. -/
theorem llex_number [Tonumber] {text : GCstr} (lexed : l.llex = .ok (.number text, l')) :
    ∃ b rest val, find digit (some b) = true ∧ Tonumber.tonumber text = some val ∧
      (text = (Lexer.bodyText b rest).1 ∨ text = ch '.' :: (Lexer.bodyText b rest).1) := by
  have fromNumeral := (llexLoop_fromNumeral (l := l.resetbuffer) rfl).value lexed
  obtain ⟨q, buff, run⟩ := fromNumeral text rfl
  obtain ⟨text', b, rest, val, isNumber, read⟩ := readNumeral_text run
  cases isNumber
  refine ⟨b, rest, val, read.digit, read.converted, ?_⟩
  rw [read.saved, L.text]
  exact buff.imp (fun fresh => by rw [fresh]; rfl) (fun dot => by rw [dot]; rfl)

end L

/-! ## The same text for `lj_lex_next` -/

namespace Lexer

variable {ls : Lexer} {more : GCstr}

/-- What may follow a token that is no string: nothing, or a byte that ends a name. -/
def Delimited (more : GCstr) : Prop := more = [] ∨ endsName more.head? = true

/-- No numeral goes on with the byte. -/
theorem endsName_facts (b : UInt8) (ends : endsName (some b) = true) :
    (∀ hex, find (expoSet hex) (some b) = false) ∧ find sign (some b) = false ∧
      find xdigit (some b) = false ∧ b ≠ ch '.' ∧ (b ||| 0x20) ≠ ch 'x' ∧
      ljCharIsident (some b) = false := by
  revert ends
  simp only [Bool.forall_bool, expoSet_bytes, sign_bytes, xdigit_bytes]
  exact byte_forall b (by decide +kernel)

theorem numeralText_delimited (hex afterExpo : Bool) (delimited : Delimited more) :
    numeralText hex afterExpo more = ([], more) := by
  cases more with
  | nil => rfl
  | cons b more =>
      obtain ⟨expo, isSign, digit, dot, -, -⟩ := endsName_facts b (delimited.resolve_left (by simp))
      rw [numeralText, expo, isSign, digit, beq_false_of_ne dot]
      simp

/-- A numeral that was cut off is taken again, whatever delimits it. -/
theorem numeralText_again (hex afterExpo : Bool) (bytes : GCstr) (delimited : Delimited more) :
    numeralText hex afterExpo ((numeralText hex afterExpo bytes).1 ++ more) =
      ((numeralText hex afterExpo bytes).1, more) := by
  induction bytes generalizing afterExpo with
  | nil => exact numeralText_delimited hex afterExpo delimited
  | cons b rest induction =>
      rw [numeralText]
      by_cases isExpo : find (expoSet hex) (some b) = true
      · rw [if_pos isExpo, List.cons_append, numeralText, if_pos isExpo, induction true]
      · rw [if_neg isExpo]
        by_cases taken : (afterExpo && find sign (some b) || find xdigit (some b) || b == ch '.') = true
        · rw [if_pos taken, List.cons_append, numeralText, if_neg isExpo, if_pos taken, induction false]
        · rw [if_neg taken]
          exact numeralText_delimited hex afterExpo delimited

theorem bodyText_cons (b : UInt8) (rest : GCstr) :
    (bodyText b rest).1 = b :: (bodyText b rest).1.tail := by
  cases rest with
  | nil => rfl
  | cons x rest =>
      rw [bodyText]
      split
      · rfl
      · rfl

theorem bodyText_decimal {b : UInt8} {rest : GCstr}
    (decimal : ∀ x, rest.head? = some x → ¬(b = ch '0' ∧ (x ||| 0x20) = ch 'x')) :
    bodyText b rest = (b :: (numeralText false false rest).1, (numeralText false false rest).2) := by
  cases rest with
  | nil => rfl
  | cons x rest => rw [bodyText, if_neg (decimal x rfl)]

theorem numeralText_head (hex afterExpo : Bool) (x : UInt8) (rest : GCstr) :
    (numeralText hex afterExpo (x :: rest)).1 = [] ∨
      (numeralText hex afterExpo (x :: rest)).1.head? = some x := by
  rw [numeralText]
  split
  · exact .inr rfl
  · split
    · exact .inr rfl
    · exact .inl rfl

theorem bodyText_again (b : UInt8) (rest : GCstr) (delimited : Delimited more) :
    bodyText b ((bodyText b rest).1.tail ++ more) = ((bodyText b rest).1, more) := by
  -- Behind the numeral there is no `x` that would make it hexadecimal.
  have noPrefix (x : UInt8) (isHead : more.head? = some x) : (x ||| 0x20) ≠ ch 'x' := by
    have ends : endsName more.head? = true := by
      apply delimited.resolve_left
      intro atEnd
      rw [atEnd] at isHead
      cases isHead
    rw [isHead] at ends
    exact (endsName_facts x ends).2.2.2.2.1
  cases rest with
  | nil =>
      have text : bodyText b more = _ :=
        bodyText_decimal fun x isHead both => noPrefix x isHead both.2
      change bodyText b more = ([b], more)
      rw [text, numeralText_delimited false false delimited]
  | cons x rest =>
      by_cases isHex : b = ch '0' ∧ (x ||| 0x20) = ch 'x'
      · rw [bodyText, if_pos isHex]
        change bodyText b (x :: ((numeralText true false rest).1 ++ more)) = _
        rw [bodyText, if_pos isHex, numeralText_again true false rest delimited]
      · rw [bodyText, if_neg isHex]
        change bodyText b ((numeralText false false (x :: rest)).1 ++ more) = _
        rw [bodyText_decimal, numeralText_again false false (x :: rest) delimited]
        intro y isHead both
        cases numeralText_head false false x rest with
        | inl none =>
            rw [none] at isHead
            exact noPrefix y isHead both.2
        | inr first =>
            rw [List.head?_append, first] at isHead
            cases isHead
            exact isHex both

/-- A numeral that is delimited is one token, of the value its text is converted to. -/
theorem ljLexNext_numeral [StrScan] [Tonumber] (numbers : SameNumbers) {b : UInt8} {rest : GCstr}
    {val : Num} {fuel : Nat} (digit : find L.digit (some b) = true)
    (converted : Tonumber.tonumber (bodyText b rest).1 = some val)
    (bytes : ls.rest = (bodyText b rest).1 ++ more) (delimited : Delimited more)
    (enough : ls.rest.length < fuel) :
    ∃ ls', ls.ljLexNext fuel = .ok (.number val, ls') ∧ ls'.rest = more := by
  let start : Lexer := { ls with lastline := ls.linenumber, sb := [] }
  have isDigit : startsNumeral b = true ∧ startsNumber (some b) = true ∧
      find sign (some b) = false ∧ isEolByte b = false ∧ isBlank (some b) = false ∧
      b ≠ ch ';' ∧ b ≠ ch '(' ∧ b ≠ ch ')' ∧ b ≠ ch ':' ∧ b ≠ ch '"' :=
    find_forall L.digit_bytes digit (by decide +kernel)
  obtain ⟨starts, startsNumber, noSign, notEol, notBlank, notSemi, notOpen, notClose, notColon,
    notQuote⟩ := isDigit
  have split : start.rest = b :: ((bodyText b rest).1.tail ++ more) := by
    change ls.rest = _
    rw [bytes, bodyText_cons]
    rfl
  have isChar : start.c = some b := by rw [c_eq_head?, split]; rfl
  have again := bodyText_again b rest delimited
  have ended : ljCharIsident (bodyText b ((bodyText b rest).1.tail ++ more)).2.head? = false := by
    rw [again]
    cases more with
    | nil =>
        change ljCharIsident none = false
        decide
    | cons c more => exact (endsName_facts c (delimited.resolve_left (by simp))).2.2.2.2.2
  obtain ⟨ls₁, took, run⟩ := numberBody_eq split starts ended enough
  rw [again] at took
  have saved : ls₁.sb = (bodyText b rest).1 := took.sb
  have scanned : start.number fuel = .ok (.number val, ls₁) := by
    have noSign' : (start.c == some (ch '+') || start.c == some (ch '-')) = false := by
      rw [sign_facts] at noSign
      rw [isChar, Bool.or_comm]
      exact noSign
    have value : StrScan.scan ls₁.sb = .num val := by
      rw [saved, numbers.literal _ (bodyText_noSuffix starts rest), converted]
      rfl
    rw [number_eq, noSign', if_neg Bool.false_ne_true, numberBody]
    change (numberLoop _ fuel start.c _ >>= literal) = _
    rw [run]
    change ls₁.literal = _
    rw [literal, value]
  have dispatched : nextLoop fuel fuel start = .ok (.number val, ls₁) := by
    cases fuel with
    | zero => cases enough
    | succ fuel =>
        rw [nextLoop, iseol_eq isChar, isChar, notEol, if_neg Bool.false_ne_true, notBlank,
          if_neg Bool.false_ne_true, if_neg (by simpa using notSemi), if_neg (by simpa using notOpen),
          if_neg (by simpa using notClose), if_neg (by simpa using notColon),
          if_neg (by simpa using notQuote), if_pos startsNumber]
        exact scanned
  refine ⟨{ ls₁ with tok := some .number }, ?_, took.rest⟩
  rw [ljLexNext, dispatched]
  rfl

/-- With a point in front it is a name, or no token at all. -/
theorem ljLexNext_point [StrScan] {tail : GCstr} {fuel : Nat} {val : Num} {ls' : Lexer}
    (bytes : ls.rest = ch '.' :: tail) : ls.ljLexNext fuel ≠ .ok (.number val, ls') := by
  let start : Lexer := { ls with lastline := ls.linenumber, sb := [] }
  have isChar : start.c = some (ch '.') := by
    rw [c_eq_head?]
    change ls.rest.head? = _
    rw [bytes]
    rfl
  cases fuel with
  | zero =>
      intro impossible
      cases impossible
  | succ fuel =>
      have dispatched : nextLoop (fuel + 1) (fuel + 1) start = start.name (fuel + 1) := by
        rw [nextLoop, iseol_eq isChar, isChar]
        rfl
      rw [ljLexNext, dispatched, name]
      cases nameLoop (fuel + 1) start with
      | error e =>
          intro impossible
          cases impossible
      | ok after =>
          intro impossible
          cases impossible

end Lexer

/-! ## Both -/

/-- A numeral of Lua is one number of the same value for `lj_lex_next`, if it does not start
with a point. -/
theorem numeral_survives_iff [StrScan] [Tonumber] (numbers : Lexer.SameNumbers) {l l' : L}
    {text : GCstr} (lexed : l.llex = .ok (.number text, l')) {ls : Lexer} {more : GCstr} {fuel : Nat}
    (bytes : ls.rest = text ++ more) (delimited : Lexer.Delimited more)
    (enough : ls.rest.length < fuel) :
    (∃ val ls', Tonumber.tonumber text = some val ∧ ls.ljLexNext fuel = .ok (.number val, ls') ∧
      ls'.rest = more) ↔ text.head? ≠ some (ch '.') := by
  obtain ⟨b, rest, val, digit, converted, isText⟩ := L.llex_number lexed
  cases isText with
  | inl isText =>
      have noPoint : text.head? ≠ some (ch '.') := by
        have notDigit : b ≠ ch '.' := find_forall L.digit_bytes digit (by decide)
        rw [isText, Lexer.bodyText_cons]
        simpa using notDigit
      rw [isText] at converted bytes
      obtain ⟨ls', scanned, behind⟩ :=
        Lexer.ljLexNext_numeral numbers digit converted bytes delimited enough
      rw [← isText] at converted
      exact ⟨fun _ => noPoint, fun _ => ⟨val, ls', converted, scanned, behind⟩⟩
  | inr isText =>
      rw [isText] at bytes
      have noNumber (val : Num) (ls' : Lexer) : ls.ljLexNext fuel ≠ .ok (.number val, ls') :=
        Lexer.ljLexNext_point bytes
      have point : text.head? = some (ch '.') := by rw [isText]; rfl
      exact ⟨fun ⟨val, ls', _, scanned, _⟩ => absurd scanned (noNumber val ls'),
        fun noPoint => absurd point noPoint⟩

/-! Two numerals as `tonumber` and `lj_strscan_scan` convert them. -/

@[reducible] def oneAndHalf : Tonumber where
  tonumber text :=
    if text = .ofString "0x.8p+1" then some 0x3FF0000000000000
    else if text = .ofString ".5" then some 0x3FE0000000000000
    else none

@[reducible] def oneAndHalfScan : StrScan := ⟨fun text => (oneAndHalf.tonumber text).elim .error .num⟩

theorem sameOneAndHalf : @Lexer.SameNumbers oneAndHalfScan oneAndHalf := by
  have refused (s : UInt8) (rest : GCstr) (isSign : find sign (some s) = true) :
      oneAndHalf.tonumber (s :: rest) = none := by
    have notFirst : s ≠ ch '0' ∧ s ≠ ch '.' := find_forall sign_bytes isSign (by decide)
    have one : GCstr.ofString "0x.8p+1" = ch '0' :: GCstr.ofString "x.8p+1" := by decide +kernel
    have half : GCstr.ofString ".5" = ch '.' :: GCstr.ofString "5" := by decide +kernel
    change (if s :: rest = _ then _ else if s :: rest = _ then _ else _) = none
    rw [one, half, if_neg fun same => notFirst.1 (List.cons.inj same).1,
      if_neg fun same => notFirst.2 (List.cons.inj same).1]
  have scanned (s : UInt8) (rest : GCstr) (isSign : find sign (some s) = true) :
      oneAndHalfScan.scan (s :: rest) = .error := by
    change (oneAndHalf.tonumber (s :: rest)).elim _ _ = _
    rw [refused s rest isSign]
    rfl
  exact @Lexer.SameNumbers.mk oneAndHalfScan oneAndHalf (fun _ _ => rfl)
    (fun s isSign => scanned s [] isSign)
    fun s b rest isSign _ _ => ⟨scanned s (b :: rest) isSign, refused s (b :: rest) isSign⟩

/-- `0x.8p+1`, in Lua in front of a brace and in TP in front of a parenthesis. -/
theorem numeral_survives_hexadecimal :
    (∃ val ls', oneAndHalf.tonumber (.ofString "0x.8p+1") = some val ∧
      @Lexer.ljLexNext oneAndHalfScan 9 { input := .char (ch '0') (.ofString "x.8p+1)") [] } =
        .ok (.number val, ls') ∧ ls'.rest = [ch ')']) ↔
      (GCstr.ofString "0x.8p+1").head? ≠ some (ch '.') := by
  have lexed : @L.llex oneAndHalf { z := .ofString "0x.8p+1\x7d" } =
      .ok (.number (.ofString "0x.8p+1"),
        { z := [125], buff := [[48], [120], [46], [56], [112], [43], [49]] }) := by
    decide +kernel
  have bytes : Lexer.rest { input := .char (ch '0') (.ofString "x.8p+1)") [] } =
      .ofString "0x.8p+1" ++ [ch ')'] := by
    decide +kernel
  exact @numeral_survives_iff oneAndHalfScan oneAndHalf sameOneAndHalf _ _ _ lexed _ _ 9 bytes
    (.inr (by decide)) (by decide +kernel)

/-- The manual of Lua has `.5`, and so has that of TP, but `lj_lex_next` reads a name. -/
theorem numeral_with_point_is_name :
    ¬∀ (_ : StrScan) (_ : Tonumber), Lexer.SameNumbers → ∀ (l l' : L) (text : GCstr),
      l.llex = .ok (.number text, l') → ∀ (ls : Lexer) (more : GCstr) (fuel : Nat),
        ls.rest = text ++ more → Lexer.Delimited more → ls.rest.length < fuel →
          ∃ val ls', Tonumber.tonumber text = some val ∧
            ls.ljLexNext fuel = .ok (.number val, ls') ∧ ls'.rest = more := by
  intro claim
  have lexed : @L.llex oneAndHalf { z := .ofString ".5" } =
      .ok (.number (.ofString ".5"), { z := [], buff := [[46], [53]] }) := by
    decide +kernel
  have bytes : Lexer.rest { input := .char (ch '.') [ch '5', ch ')'] [] } =
      .ofString ".5" ++ [ch ')'] := by
    decide +kernel
  obtain ⟨val, ls', -, scanned, -⟩ := claim oneAndHalfScan oneAndHalf sameOneAndHalf _ _ _ lexed _ _ 4
    bytes (.inr (by decide)) (by decide)
  have isName : ∃ after, @Lexer.ljLexNext oneAndHalfScan 4
      { input := .char (ch '.') [ch '5', ch ')'] [] } = .ok (.name [ch '.', ch '5'], after) := by
    exact ⟨_, rfl⟩
  obtain ⟨after, name⟩ := isName
  rw [name] at scanned
  cases scanned

end TvmJit
