import TvmJit.Lex.Agreement

/-! Where the two TP scanners read the same number. `lj_lex_next` takes a literal to
the end of an identifier, `P:next` to the end of a numeral. -/

namespace TvmJit

namespace Lexer

variable {ls : Lexer} {p : P}

/-! ## The text of a numeral -/

/-- The letter of the exponent, as the two scanners test for it. -/
def expoLetter (hex : Bool) : UInt8 := if hex then ch 'p' else ch 'e'

def expoSet (hex : Bool) : GCstr := if hex then .ofString "Pp" else .ofString "Ee"

theorem expoSet_bytes (hex : Bool) : expoSet hex = if hex then [80, 112] else [69, 101] := by
  cases hex <;> decide +kernel

/-- The bytes a numeral goes on with, and those behind it. After the letter of the
exponent a sign belongs to it. -/
def numeralText (hex : Bool) : Bool → GCstr → GCstr × GCstr
  | _, [] => ([], [])
  | afterExpo, b :: rest =>
      if find (expoSet hex) (some b) then
        (b :: (numeralText hex true rest).1, (numeralText hex true rest).2)
      else if afterExpo && find sign (some b) || find xdigit (some b) || b == ch '.' then
        (b :: (numeralText hex false rest).1, (numeralText hex false rest).2)
      else ([], b :: rest)

theorem numeralText_append (hex afterExpo : Bool) (bytes : GCstr) :
    (numeralText hex afterExpo bytes).1 ++ (numeralText hex afterExpo bytes).2 = bytes := by
  induction bytes generalizing afterExpo with
  | nil => rfl
  | cons b rest induction =>
      rw [numeralText]
      split
      · exact congrArg (b :: ·) (induction true)
      · split
        · exact congrArg (b :: ·) (induction false)
        · rfl

theorem expo_facts (hex : Bool) (b : UInt8) :
    find (expoSet hex) (some b) = (b ||| 0x20 == expoLetter hex) ∧
      (find (expoSet hex) (some b) = true → ljCharIsident (some b) = true ∧
        find sign (some b) = false) := by
  rw [expoSet_bytes, sign_bytes]
  cases hex
  · exact byte_forall b (by decide +kernel)
  · exact byte_forall b (by decide +kernel)

theorem xdigit_ident (b : UInt8) (digit : find xdigit (some b) = true) :
    ljCharIsident (some b) = true :=
  find_forall xdigit_bytes digit (by decide)

theorem sign_facts (b : UInt8) : find sign (some b) = (b == ch '-' || b == ch '+') := by
  rw [sign_bytes]
  simp [find, ch, Bool.or_comm, beq_eq_decide]

/-- The sign after the letter of an exponent. -/
theorem numeralText_sign (hex : Bool) (s : UInt8) (rest : GCstr) (isSign : find sign (some s) = true) :
    numeralText hex true (s :: rest) =
      (s :: (numeralText hex false rest).1, (numeralText hex false rest).2) := by
  have notExpo : find (expoSet hex) (some s) ≠ true := fun isExpo => by
    rw [((expo_facts hex s).2 isExpo).2] at isSign
    cases isSign
  rw [numeralText, if_neg notExpo, isSign]
  rfl

theorem numeralText_noSign (hex : Bool) {bytes : GCstr} (noSign : find sign bytes.head? = false) :
    numeralText hex true bytes = numeralText hex false bytes := by
  cases bytes with
  | nil => rfl
  | cons b rest =>
      have noSign : find sign (some b) = false := noSign
      rw [numeralText, numeralText, noSign]
      simp only [Bool.and_false, Bool.false_or]

/-- The state after these bytes have been saved. -/
def P.took (p : P) (text : GCstr × GCstr) : P := { p with z := text.2, buff := p.buff ++ text.1 }

theorem P.took_saveAndNext {p : P} {b : UInt8} (isChar : p.current = some b) (text : GCstr × GCstr) :
    P.took p.saveAndNext text = P.took p (b :: text.1, text.2) := by
  unfold P.took P.saveAndNext P.save P.next_
  rw [isChar]
  simp

theorem P.numeralLoop_eq (hex : Bool) {fuel : Nat} {p : P} (enough : p.z.length < fuel) :
    p.numeralLoop (expoSet hex) fuel = .ok (P.took p (numeralText hex false p.z)) := by
  induction fuel generalizing p with
  | zero => omega
  | succ fuel induction =>
      rw [P.numeralLoop, P.checkNext]
      cases bytes : p.z with
      | nil =>
          have atEnd : p.current = none := by rw [P.current, bytes]; rfl
          rw [atEnd, P.took, numeralText, List.append_nil, ← bytes]
          rfl
      | cons b rest =>
          have isChar : p.current = some b := by rw [P.current, bytes]; rfl
          have after : p.saveAndNext.z = rest := by
            change p.z.tail = rest
            rw [bytes, List.tail_cons]
          rw [bytes, List.length_cons] at enough
          rw [isChar, numeralText]
          by_cases isExpo : find (expoSet hex) (some b) = true
          · rw [if_pos isExpo, if_pos isExpo, ← P.took_saveAndNext isChar]
            dsimp only
            rw [if_pos rfl, P.checkNext]
            by_cases isSign : find sign p.saveAndNext.current = true
            · rw [if_pos isSign]
              cases rest with
              | nil =>
                  rw [P.current, after] at isSign
                  cases isSign
              | cons s rest =>
                  have isChar' : p.saveAndNext.current = some s := by rw [P.current, after]; rfl
                  have after' : p.saveAndNext.saveAndNext.z = rest := by
                    change p.saveAndNext.z.tail = rest
                    rw [after, List.tail_cons]
                  rw [isChar'] at isSign
                  rw [List.length_cons] at enough
                  rw [numeralText_sign hex s rest isSign, ← P.took_saveAndNext isChar',
                    induction (by rw [after']; omega), after']
            · rw [if_neg isSign, induction (by rw [after]; omega), after, numeralText_noSign]
              rw [P.current, after] at isSign
              simpa using isSign
          · rw [if_neg isExpo, if_neg isExpo]
            dsimp only
            rw [if_neg Bool.false_ne_true]
            by_cases more : (find xdigit (some b) || b == ch '.') = true
            · rw [if_pos (by simpa using more), if_pos (by simpa using more),
                ← P.took_saveAndNext isChar, induction (by rw [after]; omega), after]
            · rw [if_neg (by simpa using more), if_neg (by simpa using more), P.took,
                List.append_nil, ← bytes]

/-- The state after these bytes have been saved. -/
structure Took (ls : Lexer) (text : GCstr × GCstr) (ls' : Lexer) : Prop where
  rest : ls'.rest = text.2
  sb : ls'.sb = ls.sb ++ text.1
  linenumber : ls'.linenumber = ls.linenumber
  lastline : ls'.lastline = ls.lastline

theorem Took.savenext {b : UInt8} (isChar : ls.c = some b) {text : GCstr × GCstr} {ls' : Lexer}
    (took : Took ls.savenext text ls') : Took ls (b :: text.1, text.2) ls' where
  rest := took.rest
  sb := by
    have sb := took.sb
    rw [Lexer.savenext, Lexer.save, isChar] at sb
    change ls'.sb = ls.sb ++ [b] ++ text.1 at sb
    rw [sb, List.append_assoc, List.singleton_append]
  linenumber := took.linenumber
  lastline := took.lastline

theorem numberLoop_eq (hex : Bool) {fuel : Nat} (c : LexChar) (enough : ls.rest.length < fuel)
    (ended : ljCharIsident
      (numeralText hex (c.any fun b => b ||| 0x20 == expoLetter hex) ls.rest).2.head? = false) :
    ∃ ls', numberLoop (expoLetter hex) fuel c ls = .ok ls' ∧
      Took ls (numeralText hex (c.any fun b => b ||| 0x20 == expoLetter hex) ls.rest) ls' := by
  induction fuel generalizing ls c with
  | zero => omega
  | succ fuel induction =>
      rw [numberLoop]
      cases isChar : ls.c with
      | none =>
          have atEnd : ls.rest = [] := by rwa [c_eq_head?, List.head?_eq_none_iff] at isChar
          rw [atEnd, numeralText]
          exact ⟨ls, rfl, ⟨atEnd, (List.append_nil _).symm, rfl, rfl⟩⟩
      | some b =>
          have shape := rest_eq_cons isChar
          have shorter := length_tail_of_c isChar
          have letter := (expo_facts hex b).1
          rw [shape] at ended ⊢
          rw [numeralText] at ended ⊢
          -- The loop takes `b` and goes on.
          have goesOn {afterExpo : Bool} (isAfter : (b ||| 0x20 == expoLetter hex) = afterExpo)
              (ended : ljCharIsident (numeralText hex afterExpo ls.rest.tail).2.head? = false) :
              ∃ ls', numberLoop (expoLetter hex) fuel (some b) ls.savenext = .ok ls' ∧
                Took ls (b :: (numeralText hex afterExpo ls.rest.tail).1,
                  (numeralText hex afterExpo ls.rest.tail).2) ls' := by
            subst isAfter
            have shorterNext : ls.savenext.rest.length < fuel := by
              rw [rest_savenext]
              omega
            have endedNext : ljCharIsident (numeralText hex
                ((some b).any fun b => b ||| 0x20 == expoLetter hex) ls.savenext.rest).2.head? =
                  false := by
              rw [rest_savenext]
              exact ended
            obtain ⟨ls', run, took⟩ := induction (some b) shorterNext endedNext
            rw [rest_savenext] at took
            exact ⟨ls', run, took.savenext isChar⟩
          by_cases isExpo : find (expoSet hex) (some b) = true
          · rw [if_pos isExpo] at ended ⊢
            have ident := ((expo_facts hex b).2 isExpo).1
            rw [if_pos (by rw [ident]; rfl)]
            exact goesOn (letter.symm.trans isExpo) ended
          · rw [if_neg isExpo] at ended ⊢
            have notLetter : (b ||| 0x20 == expoLetter hex) = false := by
              rw [← letter]
              simpa using isExpo
            rw [sign_facts] at ended ⊢
            by_cases more : ((c.any fun b => b ||| 0x20 == expoLetter hex) &&
                (b == ch '-' || b == ch '+') || find xdigit (some b) || b == ch '.') = true
            · rw [if_pos more] at ended ⊢
              have taken : (ljCharIsident (some b) || some b == some (ch '.') ||
                  ((some b == some (ch '-') || some b == some (ch '+')) &&
                    c.any fun b => b ||| 0x20 == expoLetter hex)) = true := by
                have ident := xdigit_ident b
                simp only [Bool.or_eq_true, Bool.and_eq_true] at more ⊢
                rcases more with (⟨afterExpo, isSign⟩ | digit) | dot
                · exact .inr ⟨by simpa using isSign, afterExpo⟩
                · exact .inl (.inl (ident digit))
                · exact .inl (.inr (by simpa using dot))
              rw [if_pos taken]
              exact goesOn notLetter ended
            · rw [if_neg more] at ended ⊢
              have stops : ¬(ljCharIsident (some b) || some b == some (ch '.') ||
                  ((some b == some (ch '-') || some b == some (ch '+')) &&
                    c.any fun b => b ||| 0x20 == expoLetter hex)) = true := by
                have ended : ljCharIsident (some b) = false := ended
                simp only [Bool.or_eq_true, Bool.and_eq_true, not_or, not_and] at more ⊢
                obtain ⟨⟨noSign, -⟩, noDot⟩ := more
                refine ⟨⟨by simp [ended], by simpa using noDot⟩, fun isSign afterExpo => ?_⟩
                have noSign := noSign afterExpo
                simp at noSign isSign
                exact isSign.elim noSign.1 noSign.2
              rw [if_neg stops]
              exact ⟨ls, rfl, ⟨shape, (List.append_nil _).symm, rfl, rfl⟩⟩

/-! ## Numbers -/

/-- A digit or the decimal point. -/
def startsNumeral (b : UInt8) : Bool := ch '0' ≤ b && b ≤ ch '9' || b == ch '.'

/-- `inf` or `nan`, in any case. -/
def startsNonFinite : GCstr → Bool
  | a :: b :: c :: _ =>
      let letters : GCstr := [a ||| 0x20, b ||| 0x20, c ||| 0x20]
      letters == .ofString "inf" || letters == .ofString "nan"
  | _ => false

/-- The letters of the suffixes `LL`, `ULL` and `i`. -/
def suffixLetters : GCstr := .ofString "ILUilu"

/-- The text of a number behind its sign, and the bytes behind it. -/
def bodyText (b : UInt8) : GCstr → GCstr × GCstr
  | [] => ([b], [])
  | x :: rest =>
      if b = ch '0' ∧ (x ||| 0x20) = ch 'x' then
        (b :: x :: (numeralText true false rest).1, (numeralText true false rest).2)
      else (b :: (numeralText false false (x :: rest)).1, (numeralText false false (x :: rest)).2)

/-- The bytes behind a sign. -/
def unsigned (start : GCstr) : GCstr := if find sign start.head? then start.tail else start

/-- The number these bytes start with is no other for `lj_lex_next`: its digits do
not go on as an identifier, and behind a sign there is no infinity or NaN. -/
def plainNumber (start : GCstr) : Bool :=
  match unsigned start with
  | [] => true
  | b :: rest =>
      if startsNumeral b then !ljCharIsident (bodyText b rest).2.head?
      else !startsNonFinite (b :: rest)

/-- What `lj_strscan_scan` and `tonumber`, which calls it with fewer options, make
of the texts of numbers. -/
structure SameNumbers [StrScan] [Tonumber] : Prop where
  /-- The options differ in the suffixes they allow. -/
  literal : ∀ text : GCstr, (∀ b ∈ text, b ∉ suffixLetters) →
    StrScan.scan text = (Tonumber.tonumber text).elim .error .num
  /-- No number has a sign alone, -/
  sign : ∀ s, find sign (some s) = true → StrScan.scan [s] = .error
  /-- nor anything but a digit, a point, an infinity or a NaN behind its sign. -/
  refused : ∀ s b rest, find TvmJit.sign (some s) = true → startsNumeral b = false →
    startsNonFinite (b :: rest) = false →
    StrScan.scan (s :: b :: rest) = .error ∧ Tonumber.tonumber (s :: b :: rest) = none

/-- The bytes that numerals are made of. -/
def NumeralByte (b : UInt8) : Prop :=
  find xdigit (some b) = true ∨ b = ch '.' ∨ find sign (some b) = true ∨
    find (expoSet true) (some b) = true ∨ find (expoSet false) (some b) = true ∨
    startsNumeral b = true ∨ (b ||| 0x20) = ch 'x'

theorem NumeralByte.facts {b : UInt8} (numeral : NumeralByte b) :
    b ∉ suffixLetters ∧ isEolByte b = false := by
  rcases numeral with digit | rfl | isSign | expo | expo | starts | isX
  · exact find_forall xdigit_bytes digit (by decide +kernel)
  · decide +kernel
  · exact find_forall sign_bytes isSign (by decide +kernel)
  · exact find_forall (expoSet_bytes true) expo (by decide +kernel)
  · exact find_forall (expoSet_bytes false) expo (by decide +kernel)
  · revert starts
    exact byte_forall b (by decide +kernel)
  · revert isX
    exact byte_forall b (by decide +kernel)

theorem numeralText_bytes (hex afterExpo : Bool) (bytes : GCstr) :
    ∀ b ∈ (numeralText hex afterExpo bytes).1, NumeralByte b := by
  induction bytes generalizing afterExpo with
  | nil => simp [numeralText]
  | cons c rest induction =>
      rw [numeralText]
      split
      · next isExpo =>
          have first : NumeralByte c := by
            cases hex
            · exact .inr (.inr (.inr (.inr (.inl isExpo))))
            · exact .inr (.inr (.inr (.inl isExpo)))
          exact List.forall_mem_cons.mpr ⟨first, induction true⟩
      · split
        · next more =>
            have first : NumeralByte c := by
              simp only [Bool.or_eq_true, Bool.and_eq_true, beq_iff_eq] at more
              rcases more with (⟨-, isSign⟩ | digit) | dot
              · exact .inr (.inr (.inl isSign))
              · exact .inl digit
              · exact .inr (.inl dot)
            exact List.forall_mem_cons.mpr ⟨first, induction false⟩
        · simp

theorem bodyText_bytes {b : UInt8} (starts : startsNumeral b = true) (rest : GCstr) :
    ∀ c ∈ (bodyText b rest).1, NumeralByte c := by
  have first : NumeralByte b := .inr (.inr (.inr (.inr (.inr (.inl starts)))))
  cases rest with
  | nil => exact List.forall_mem_cons.mpr ⟨first, by simp⟩
  | cons x rest =>
      rw [bodyText]
      split
      · next isHex =>
          have second : NumeralByte x := .inr (.inr (.inr (.inr (.inr (.inr isHex.2)))))
          exact List.forall_mem_cons.mpr ⟨first,
            List.forall_mem_cons.mpr ⟨second, numeralText_bytes _ _ _⟩⟩
      · exact List.forall_mem_cons.mpr ⟨first, numeralText_bytes _ _ _⟩

theorem bodyText_noSuffix {b : UInt8} (starts : startsNumeral b = true) (rest : GCstr) :
    ∀ c ∈ (bodyText b rest).1, c ∉ suffixLetters :=
  fun c member => (bodyText_bytes starts rest c member).facts.1

theorem startsNonFinite_prefix {bytes text : GCstr} (isPrefix : text <+: bytes)
    (finite : startsNonFinite bytes = false) : startsNonFinite text = false := by
  obtain ⟨more, rfl⟩ := isPrefix
  match text with
  | [] => rfl
  | [_] => rfl
  | [_, _] => rfl
  | _ :: _ :: _ :: _ => exact finite

theorem find_xX (x : UInt8) :
    find (.ofString "Xx") (some x) = (x ||| 0x20 == ch 'x') := byte_forall x (by decide +kernel)

/-- The end of `lex_number`: what it saved is converted. -/
def literal [StrScan] (ls : Lexer) : Except LexError (Token × Lexer) :=
  match StrScan.scan ls.sb with
  | .num n => .ok (.number n, ls)
  | .i64 value => .ok (.cdata (.int64 value), ls)
  | .u64 value => .ok (.cdata (.uint64 value), ls)
  | .imag n => .ok (.cdata (.complex n), ls)
  | .error => ls.error (some .number) .xnumber

/-- `lex_number` behind the sign. -/
def numberBody [StrScan] (fuel : Nat) (ls : Lexer) : Except LexError (Token × Lexer) := do
  let c := ls.c
  let zero := c == some (ch '0')
  let ls := if zero then ls.savenext else ls
  let xp := if zero && ls.c.any fun b => b ||| 0x20 == ch 'x' then ch 'p' else ch 'e'
  let ls ← numberLoop xp fuel c ls
  ls.literal

theorem number_eq [StrScan] (fuel : Nat) (ls : Lexer) :
    ls.number fuel = if ls.c == some (ch '+') || ls.c == some (ch '-') then
      ls.savenext.numberBody fuel else ls.numberBody fuel :=
  apply_ite (numberBody fuel) _ _ _

/-- The end of `P:_read_numeral`. -/
def P.literal [Tonumber] (p : P) : Except ReaderError (Token × P) :=
  match Tonumber.tonumber p.buff with
  | some val => .ok (.number val, p)
  | none => p.lexerror "malformed number" .number

/-- `P:_read_numeral` behind the sign. -/
def P.readBody [Tonumber] (fuel : Nat) (p : P) : Except ReaderError (Token × P) := do
  let first := p.current
  let p := p.saveAndNext
  let (hex, p) := if first = some (ch '0') then p.checkNext (.ofString "Xx") else (false, p)
  let p ← p.numeralLoop (if hex then .ofString "Pp" else .ofString "Ee") fuel
  P.literal p

theorem P.readNumeral_eq [Tonumber] (fuel : Nat) (p : P) :
    p.readNumeral fuel = if find sign p.current then P.readBody fuel p.saveAndNext
      else P.readBody fuel p :=
  apply_ite (P.readBody fuel) _ _ _

theorem P.readBody_eq {fuel : Nat} {b : UInt8} {rest : GCstr} (bytes : p.z = b :: rest)
    (enough : p.z.length < fuel) :
    let (hex, q) := if p.current = some (ch '0') then p.saveAndNext.checkNext (.ofString "Xx")
      else (false, p.saveAndNext)
    q.numeralLoop (if hex then .ofString "Pp" else .ofString "Ee") fuel =
      .ok (P.took p (bodyText b rest)) := by
  have isChar : p.current = some b := by rw [P.current, bytes]; rfl
  have after : p.saveAndNext.z = rest := by
    change p.z.tail = rest
    rw [bytes, List.tail_cons]
  rw [bytes, List.length_cons] at enough
  -- Without a prefix the loop starts at the second byte.
  have decimal : p.saveAndNext.numeralLoop (.ofString "Ee") fuel =
      .ok (P.took p (b :: (numeralText false false rest).1, (numeralText false false rest).2)) := by
    rw [← P.took_saveAndNext isChar, ← after]
    exact P.numeralLoop_eq false (by rw [after]; omega)
  rw [isChar, P.checkNext, P.current, after]
  cases rest with
  | nil =>
      have stays : (if some b = some (ch '0') then
          if find (.ofString "Xx") ([] : GCstr).head? then (true, p.saveAndNext.saveAndNext)
          else (false, p.saveAndNext)
        else (false, p.saveAndNext)) = (false, p.saveAndNext) := ite_self _
      rw [stays]
      exact decimal
  | cons x rest =>
      rw [List.head?_cons, find_xX, bodyText]
      by_cases isHex : b = ch '0' ∧ x ||| 0x20 = ch 'x'
      · have isChar' : p.saveAndNext.current = some x := by rw [P.current, after]; rfl
        have after' : p.saveAndNext.saveAndNext.z = rest := by
          change p.saveAndNext.z.tail = rest
          rw [after, List.tail_cons]
        have enough' : p.saveAndNext.saveAndNext.z.length < fuel := by
          rw [after']
          rw [List.length_cons] at enough
          omega
        have hexadecimal := P.numeralLoop_eq true enough'
        rw [after', P.took_saveAndNext isChar', P.took_saveAndNext isChar] at hexadecimal
        rw [if_pos (congrArg some isHex.1), if_pos (by simpa using isHex.2), if_pos isHex]
        exact hexadecimal
      · rw [if_neg isHex]
        have stays : (if some b = some (ch '0') then
            if (x ||| 0x20 == ch 'x') = true then (true, p.saveAndNext.saveAndNext)
            else (false, p.saveAndNext)
          else (false, p.saveAndNext)) = (false, p.saveAndNext) := by
          by_cases zero : b = ch '0'
          · rw [if_pos (congrArg some zero), if_neg (by simpa [zero] using isHex)]
          · rw [if_neg (by simpa using zero)]
        rw [stays]
        exact decimal

/-- A character of the number is taken. -/
theorem numberLoop_taken (xp : UInt8) {fuel : Nat} (c : LexChar) {b : UInt8} (isChar : ls.c = some b)
    (taken : ljCharIsident (some b) = true ∨ b = ch '.') :
    numberLoop xp (fuel + 1) c ls = numberLoop xp fuel (some b) ls.savenext := by
  rw [numberLoop, isChar]
  apply if_pos
  rcases taken with ident | rfl
  · rw [ident]; rfl
  · rfl

theorem numeral_ident (b : UInt8) : startsNumeral b = true →
    (ljCharIsident (some b) = true ∨ b = ch '.') ∧ (b ||| 0x20) ≠ ch 'e' :=
  byte_forall b (by decide +kernel)

theorem numberBody_eq {fuel : Nat} {b : UInt8} {rest : GCstr} (bytes : ls.rest = b :: rest)
    (starts : startsNumeral b = true) (ended : ljCharIsident (bodyText b rest).2.head? = false)
    (enough : ls.rest.length < fuel) :
    ∃ ls', Took ls (bodyText b rest) ls' ∧
      numberLoop (if ls.c == some (ch '0') &&
          (if ls.c == some (ch '0') then ls.savenext else ls).c.any fun b => b ||| 0x20 == ch 'x'
        then ch 'p' else ch 'e') fuel ls.c (if ls.c == some (ch '0') then ls.savenext else ls) =
        .ok ls' := by
  have isChar : ls.c = some b := by rw [c_eq_head?, bytes]; rfl
  have after : ls.savenext.rest = rest := by rw [rest_savenext, bytes, List.tail_cons]
  have ⟨taken, notE⟩ := numeral_ident b starts
  rw [bytes, List.length_cons] at enough
  -- Without a prefix the loop goes on with the second byte.
  have decimal {fuel : Nat} (enough : rest.length < fuel)
      (ended : ljCharIsident (numeralText false false rest).2.head? = false) :
      ∃ ls', Took ls (b :: (numeralText false false rest).1, (numeralText false false rest).2) ls' ∧
        numberLoop (ch 'e') fuel (some b) ls.savenext = .ok ls' := by
    have notExpo : ((some b).any fun b => b ||| 0x20 == expoLetter false) = false := by
      simpa [expoLetter] using notE
    have endedNext : ljCharIsident (numeralText false
        ((some b).any fun b => b ||| 0x20 == expoLetter false) ls.savenext.rest).2.head? =
          false := by
      rw [notExpo, after]
      exact ended
    have enoughNext : ls.savenext.rest.length < fuel := by rw [after]; exact enough
    obtain ⟨ls', run, took⟩ := numberLoop_eq false (some b) enoughNext endedNext
    rw [notExpo, after] at took
    exact ⟨ls', took.savenext isChar, run⟩
  rw [isChar]
  by_cases zero : b = ch '0'
  · have isZero : (some b == some (ch '0')) = true := by simpa using zero
    rw [isZero, if_pos rfl, Bool.true_and]
    cases rest with
    | nil =>
        have atEnd : ls.savenext.c = none := by rw [c_eq_head?, after]; rfl
        rw [atEnd]
        exact decimal (by omega) ended
    | cons x rest =>
        have isChar' : ls.savenext.c = some x := by rw [c_eq_head?, after]; rfl
        have after' : ls.savenext.savenext.rest = rest := by
          rw [rest_savenext, after, List.tail_cons]
        have letter := byte_forall (motive := fun x => (x ||| 0x20) = ch 'x' →
          ljCharIsident (some x) = true ∧ (x ||| 0x20) ≠ ch 'p') x (by decide +kernel)
        rw [isChar', Option.any_some]
        rw [bodyText] at ended ⊢
        by_cases isHex : x ||| 0x20 = ch 'x'
        · rw [if_pos ⟨zero, isHex⟩] at ended ⊢
          rw [if_pos (by simpa using isHex)]
          obtain ⟨fuel, rfl⟩ : ∃ n, fuel = n + 1 := ⟨fuel - 1, by omega⟩
          have notExpo : ((some x).any fun b => b ||| 0x20 == expoLetter true) = false := by
            simpa [expoLetter] using (letter isHex).2
          have endedNext : ljCharIsident (numeralText true
              ((some x).any fun b => b ||| 0x20 == expoLetter true)
                ls.savenext.savenext.rest).2.head? = false := by
            rw [notExpo, after']
            exact ended
          have enoughNext : ls.savenext.savenext.rest.length < fuel := by
            rw [after']
            rw [List.length_cons] at enough
            omega
          obtain ⟨ls', run, took⟩ := numberLoop_eq true (some x) enoughNext endedNext
          rw [notExpo, after'] at took
          refine ⟨ls', (took.savenext isChar').savenext isChar, ?_⟩
          rw [numberLoop_taken _ _ isChar' (.inl (letter isHex).1)]
          exact run
        · rw [if_neg fun both => isHex both.2] at ended ⊢
          rw [if_neg (by simpa using isHex)]
          exact decimal (by omega) ended
  · have notZero : (some b == some (ch '0')) = false := by simpa using zero
    rw [notZero, Bool.false_and, if_neg Bool.false_ne_true, if_neg Bool.false_ne_true]
    have decimalText : bodyText b rest =
        (b :: (numeralText false false rest).1, (numeralText false false rest).2) := by
      cases rest with
      | nil => rfl
      | cons x rest => rw [bodyText, if_neg fun both => zero both.1]
    rw [decimalText] at ended ⊢
    obtain ⟨fuel, rfl⟩ : ∃ n, fuel = n + 1 := ⟨fuel - 1, by omega⟩
    rw [numberLoop_taken _ _ isChar taken]
    exact decimal (by omega) ended

/-- Whatever the loop takes, it takes as it stands. -/
theorem numberLoop_prefix (xp : UInt8) {fuel : Nat} (c : LexChar) (enough : ls.rest.length < fuel) :
    ∃ ls' text, numberLoop xp fuel c ls = .ok ls' ∧ ls'.sb = ls.sb ++ text ∧ text <+: ls.rest := by
  induction fuel generalizing ls c with
  | zero => omega
  | succ fuel induction =>
      have stays : ∃ ls' text, (.ok ls : Except LexError Lexer) = .ok ls' ∧
          ls'.sb = ls.sb ++ text ∧ text <+: ls.rest :=
        ⟨ls, [], rfl, (List.append_nil _).symm, List.nil_prefix⟩
      rw [numberLoop]
      cases isChar : ls.c with
      | none => exact stays
      | some b =>
          have shorter := length_tail_of_c isChar
          have shorterNext : ls.savenext.rest.length < fuel := by
            rw [rest_savenext]
            omega
          split
          · obtain ⟨ls', text, run, sb, isPrefix⟩ := induction (some b) shorterNext
            rw [rest_savenext] at isPrefix
            rw [Lexer.savenext, Lexer.save, isChar] at sb
            refine ⟨ls', b :: text, run, ?_, ?_⟩
            · rw [sb]
              exact List.append_cons ls.sb b text ▸ rfl
            · rw [rest_eq_cons isChar]
              exact List.cons_prefix_cons.mpr ⟨rfl, isPrefix⟩
          · exact stays

/-- The states after the same bytes. -/
theorem Took.same (same : Same ls p) {text : GCstr × GCstr} {ls' : Lexer} (took : Took ls text ls')
    (isSuffix : text.2 <:+ ls.rest) : Same ls' (P.took p text) where
  rest := took.rest
  sb := by
    rw [took.sb, same.sb]
    rfl
  linenumber := took.linenumber.trans same.linenumber
  lastline := took.lastline.trans same.lastline
  few := by
    have few := same.few
    have fewer := lineBreaks_suffix isSuffix
    rw [took.linenumber, took.rest]
    lia

theorem bodyText_suffix (b : UInt8) (rest : GCstr) : (bodyText b rest).2 <:+ b :: rest := by
  have isSuffix (hex : Bool) (bytes : GCstr) : (numeralText hex false bytes).2 <:+ bytes :=
    ⟨_, numeralText_append hex false bytes⟩
  cases rest with
  | nil => exact List.nil_suffix
  | cons x rest =>
      rw [bodyText]
      split
      · exact ((isSuffix true rest).trans (List.suffix_cons x rest)).trans (List.suffix_cons b _)
      · exact (isSuffix false (x :: rest)).trans (List.suffix_cons b _)

/-- The tokens of two calls are the same, and so are the places they leave. -/
def SameToken (r : Token × Lexer) (r' : Token × P) : Prop := r.1 = r'.1 ∧ Same r.2 r'.2

section

variable [StrScan] [Tonumber] {fuel : Nat}

/-- A literal both scanners have saved. -/
theorem literal_agrees (numbers : SameNumbers) (same : Same ls p)
    (plain : ∀ b ∈ ls.sb, b ∉ suffixLetters) :
    Agrees SameToken ls.literal (P.literal p) := by
  unfold literal P.literal
  rw [numbers.literal ls.sb plain, same.sb]
  cases Tonumber.tonumber p.buff with
  | none => exact Agrees.errors _ _ _ _ _ _
  | some n => exact ⟨rfl, same⟩

/-- A numeral, behind what was saved of its sign. -/
theorem numeral_agrees (numbers : SameNumbers) (same : Same ls p) {b : UInt8} {rest : GCstr}
    (bytes : ls.rest = b :: rest) (signs : ∀ s ∈ ls.sb, s ∉ suffixLetters)
    (starts : startsNumeral b = true) (ended : ljCharIsident (bodyText b rest).2.head? = false)
    (enough : ls.rest.length < fuel) :
    Agrees SameToken (ls.numberBody fuel) (P.readBody fuel p) := by
  obtain ⟨ls', took, run⟩ := numberBody_eq bytes starts ended enough
  have run' := P.readBody_eq (same.rest.symm.trans bytes) (by rw [← same.rest]; exact enough)
  have isSuffix : (bodyText b rest).2 <:+ ls.rest := by
    rw [bytes]
    exact bodyText_suffix b rest
  have plain : ∀ c ∈ ls'.sb, c ∉ suffixLetters := by
    rw [took.sb]
    exact List.forall_mem_append.mpr ⟨signs, bodyText_noSuffix starts rest⟩
  unfold numberBody P.readBody
  dsimp only
  rw [run]
  generalize (if p.current = some (ch '0') then p.saveAndNext.checkNext (.ofString "Xx")
    else (false, p.saveAndNext)) = prefixed at run' ⊢
  obtain ⟨hex, q⟩ := prefixed
  dsimp only at run' ⊢
  rw [run']
  exact literal_agrees numbers (took.same same isSuffix) plain

/-- These bytes are no number behind a sign. -/
def notNumber : GCstr → Bool
  | [] => true
  | b :: rest => !startsNumeral b && !startsNonFinite (b :: rest)

theorem numberBody_refused (numbers : SameNumbers) {s : UInt8} (sb : ls.sb = [s])
    (isSign : find sign (some s) = true) (refused : notNumber ls.rest = true)
    (enough : ls.rest.length < fuel) :
    ∃ e, ls.numberBody fuel = .error e ∧ e ≠ .outOfFuel := by
  have first : ls.c ≠ some (ch '0') := by
    intro zero
    rw [rest_eq_cons zero] at refused
    cases refused
  have notZero : (ls.c == some (ch '0')) = false := by simpa using first
  obtain ⟨ls', text, run, saved, isPrefix⟩ := numberLoop_prefix (ch 'e') ls.c enough
  have error : StrScan.scan ls'.sb = .error := by
    rw [saved, sb]
    cases text with
    | nil => exact numbers.sign s isSign
    | cons b text =>
        obtain ⟨more, bytes⟩ := isPrefix
        rw [← bytes, List.cons_append, notNumber, Bool.and_eq_true] at refused
        have finite := startsNonFinite_prefix (List.prefix_append (b :: text) more)
          (by simpa using refused.2)
        exact (numbers.refused s b text isSign (by simpa using refused.1) finite).1
  unfold numberBody
  dsimp only
  rw [notZero, Bool.false_and, if_neg Bool.false_ne_true, if_neg Bool.false_ne_true, run]
  change ∃ e, ls'.literal = .error e ∧ e ≠ .outOfFuel
  rw [literal, error]
  exact ⟨_, rfl, (nomatch ·)⟩

theorem P.readBody_refused (numbers : SameNumbers) {s : UInt8} (buff : p.buff = [s])
    (isSign : find sign (some s) = true) (refused : notNumber p.z = true)
    (enough : p.z.length < fuel) :
    ∃ e, P.readBody fuel p = .error e ∧ e ≠ .outOfFuel := by
  have first : p.current ≠ some (ch '0') := by
    intro zero
    cases bytes : p.z with
    | nil =>
        rw [P.current, bytes] at zero
        cases zero
    | cons b rest =>
        rw [P.current, bytes] at zero
        rw [bytes, Option.some.inj zero] at refused
        cases refused
  have shorter : p.saveAndNext.z.length < fuel := by
    change p.z.tail.length < fuel
    rw [List.length_tail]
    omega
  have run := P.numeralLoop_eq false shorter
  have malformed : Tonumber.tonumber (P.took p.saveAndNext
      (numeralText false false p.saveAndNext.z)).buff = none := by
    cases bytes : p.z with
    | nil =>
        have rest : p.saveAndNext.z = [] := congrArg List.tail bytes
        have saved : p.saveAndNext.buff = p.buff ++ GCstr.ofString "<eof>" := by
          change p.buff ++ p.current.elim (GCstr.ofString "<eof>") (fun b => [b]) = _
          rw [P.current, bytes]
          rfl
        have eof : GCstr.ofString "<eof>" = ch '<' :: GCstr.ofString "eof>" := by decide +kernel
        have finite : startsNonFinite (ch '<' :: GCstr.ofString "eof>") = false := by
          decide +kernel
        rw [P.took, rest, saved, buff, eof, numeralText, List.append_nil]
        exact (numbers.refused s (ch '<') (GCstr.ofString "eof>") isSign rfl finite).2
    | cons b rest =>
        have isChar : p.current = some b := by rw [P.current, bytes]; rfl
        have after : p.saveAndNext.z = rest := by
          change p.z.tail = rest
          rw [bytes, List.tail_cons]
        rw [bytes, notNumber, Bool.and_eq_true] at refused
        have isPrefix : b :: (numeralText false false rest).1 <+: b :: rest :=
          ⟨(numeralText false false rest).2, by
            rw [List.cons_append, numeralText_append]⟩
        have finite := startsNonFinite_prefix isPrefix (by simpa using refused.2)
        rw [P.took_saveAndNext isChar, P.took, after, buff]
        exact (numbers.refused s b _ isSign (by simpa using refused.1) finite).2
  unfold P.readBody
  dsimp only
  rw [if_neg first]
  dsimp only
  rw [if_neg Bool.false_ne_true]
  change ∃ e, (p.saveAndNext.numeralLoop (expoSet false) fuel >>= _) = .error e ∧ e ≠ .outOfFuel
  rw [run]
  change ∃ e, P.literal (P.took p.saveAndNext (numeralText false false p.saveAndNext.z)) =
    .error e ∧ e ≠ .outOfFuel
  rw [P.literal, malformed]
  refine ⟨_, rfl, ?_⟩
  intro impossible
  cases impossible

theorem number_agrees (numbers : SameNumbers) (same : Same ls p) (fresh : ls.sb = [])
    (starts : startsNumber ls.c = true) (plain : plainNumber ls.rest = true)
    (enough : ls.rest.length < fuel) :
    Agrees SameToken (ls.number fuel) (p.readNumeral fuel) := by
  have signEq : (ls.c == some (ch '+') || ls.c == some (ch '-')) = find sign ls.c := by
    cases ls.c with
    | none => rfl
    | some b => rw [sign_facts, Bool.or_comm]; rfl
  rw [number_eq, P.readNumeral_eq, same.c, signEq]
  obtain ⟨s, isChar⟩ : ∃ s, ls.c = some s := by
    rw [← Option.ne_none_iff_exists']
    intro isNone
    rw [isNone] at starts
    cases starts
  rw [isChar]
  rw [plainNumber, unsigned, ← c_eq_head?, isChar] at plain
  by_cases isSign : find sign (some s) = true
  · rw [if_pos isSign] at plain
    rw [if_pos isSign, if_pos isSign]
    have sameNext := same.savenext isChar
    have saved : ls.savenext.sb = [s] := by
      rw [Lexer.savenext, Lexer.save, isChar, fresh]
      rfl
    have enoughNext : ls.savenext.rest.length < fuel :=
      (before_savenext ls).length.trans_lt enough
    have signs : ∀ b ∈ ls.savenext.sb, b ∉ suffixLetters := by
      rw [saved]
      exact List.forall_mem_singleton.mpr (NumeralByte.facts (.inr (.inr (.inl isSign)))).1
    rw [← rest_savenext] at plain
    -- What follows the sign is a numeral or none for either scanner.
    have refused (refused : notNumber ls.savenext.rest = true) :
        Agrees SameToken (ls.savenext.numberBody fuel) (P.readBody fuel p.saveAndNext) := by
      obtain ⟨e, run, ended⟩ := numberBody_refused numbers saved isSign refused enoughNext
      rw [sameNext.rest] at refused enoughNext
      obtain ⟨e', run', ended'⟩ := P.readBody_refused numbers (sameNext.sb.symm.trans saved) isSign
        refused enoughNext
      rw [run, run']
      exact ⟨fun same => absurd same ended, fun same => absurd same ended'⟩
    cases bytes : ls.savenext.rest with
    | nil => exact refused (by rw [bytes]; rfl)
    | cons b rest =>
        rw [bytes] at plain
        dsimp only at plain
        by_cases starts : startsNumeral b = true
        · rw [if_pos starts] at plain
          exact numeral_agrees numbers sameNext bytes signs starts (by simpa using plain) enoughNext
        · rw [if_neg starts] at plain
          exact refused (by simp [bytes, notNumber, starts, plain])
  · rw [if_neg isSign] at plain
    rw [if_neg isSign, if_neg isSign]
    have bytes := rest_eq_cons isChar
    have numeral : startsNumeral s = true := by
      have digit : startsNumber (some s) = true → find sign (some s) = true ∨ startsNumeral s = true :=
        byte_forall s (by decide +kernel)
      rw [isChar] at starts
      exact (digit starts).resolve_left isSign
    rw [bytes] at plain
    dsimp only at plain
    rw [if_pos numeral] at plain
    exact numeral_agrees numbers same bytes (by simp [fresh]) numeral (by simpa using plain) enough

end

end Lexer

end TvmJit
