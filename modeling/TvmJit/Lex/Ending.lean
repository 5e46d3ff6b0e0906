import TvmJit.Lex.Scanner
import Mathlib.Data.List.Infix

/-! Which calls of `lj_lex_next` end. Every loop but that of `lex_name` tests for
the end of input; a name that runs to it is scanned on for ever. -/

namespace TvmJit

/-- The computation ends: in a lexer error or in a value meeting `post`. -/
def Ends {α : Type} (r : Except LexError α) (post : α → Prop) : Prop :=
  match r with
  | .ok a => post a
  | .error e => e ≠ .outOfFuel

namespace Ends

variable {α β : Type} {post post' : α → Prop}

theorem mono {r : Except LexError α} (ends : Ends r post) (implies : ∀ a, post a → post' a) :
    Ends r post' := by
  cases r with
  | ok a => exact implies a ends
  | error e => exact ends

theorem bind {r : Except LexError α} {next : α → Except LexError β} {post : β → Prop}
    {mid : α → Prop} (first : Ends r mid) (rest : ∀ a, mid a → Ends (next a) post) :
    Ends (r >>= next) post := by
  cases r with
  | ok a => exact rest a first
  | error e => exact first

end Ends

/-! ## Consuming input -/

namespace LexInput

theorem rest_next (input : LexInput) : input.next.rest = input.rest.tail := by
  unfold next
  split
  · rfl
  · rfl
  · next c rdata =>
      cases rdata with
      | nil => rfl
      | cons piece rdata => rfl

theorem c_eq_head? (input : LexInput) : input.c = input.rest.head? := by
  cases input <;> rfl

end LexInput

namespace Lexer

variable {ls ls' : Lexer}

/-- The bytes from the current character on. -/
def rest (ls : Lexer) : GCstr := ls.input.rest

theorem c_eq_head? (ls : Lexer) : ls.c = ls.rest.head? := ls.input.c_eq_head?

@[simp] theorem rest_next (ls : Lexer) : ls.next.rest = ls.rest.tail := ls.input.rest_next

@[simp] theorem rest_save (ls : Lexer) (b : UInt8) : (ls.save b).rest = ls.rest := rfl

@[simp] theorem rest_savenext (ls : Lexer) : ls.savenext.rest = ls.rest.tail :=
  (ls.save _).rest_next

@[simp] theorem rest_escaped (ls : Lexer) (bytes : GCstr) : (ls.escaped bytes).rest = ls.rest.tail :=
  Lexer.rest_next _

/-- There is a current character exactly when there is input left. -/
theorem length_tail_of_c {b : UInt8} (isChar : ls.c = some b) :
    ls.rest.tail.length + 1 = ls.rest.length := by
  rw [c_eq_head?] at isChar
  cases bytes : ls.rest with
  | nil => rw [bytes] at isChar; cases isChar
  | cons b rest => rfl

theorem ends_error {α : Type} {post : α → Prop} (tok : Option LexToken) (em : LexErrMsg) :
    Ends (ls.error tok em : Except LexError α) post := by
  intro same
  cases same

/-- `ls'` reads on where `ls` stops, or earlier. -/
def Before (ls ls' : Lexer) : Prop := ls'.rest <:+ ls.rest

theorem Before.refl (ls : Lexer) : ls.Before ls := List.suffix_refl _

theorem Before.trans {ls₁ ls₂ ls₃ : Lexer} (first : ls₁.Before ls₂) (second : ls₂.Before ls₃) :
    ls₁.Before ls₃ := List.IsSuffix.trans second first

theorem Before.length (before : ls.Before ls') : ls'.rest.length ≤ ls.rest.length :=
  List.IsSuffix.length_le before

theorem before_next (ls : Lexer) : ls.Before ls.next := by
  rw [Before, rest_next]
  exact List.tail_suffix _

theorem before_savenext (ls : Lexer) : ls.Before ls.savenext := by
  rw [Before, rest_savenext]
  exact List.tail_suffix _

theorem before_escaped (ls : Lexer) (bytes : GCstr) : ls.Before (ls.escaped bytes) := by
  rw [Before, rest_escaped]
  exact List.tail_suffix _

/-! ## Loops that end -/

theorem iseol_c (isEol : ls.iseol = true) : ∃ b, ls.c = some b := by
  cases isChar : ls.c with
  | none => simp [iseol, isChar] at isEol
  | some b => exact ⟨b, rfl⟩

/-- The line break at the current character, left behind. -/
def pastEol (ls : Lexer) : Lexer :=
  if ls.next.iseol && ls.next.c != ls.c then ls.next.next else ls.next

theorem newline_eq (ls : Lexer) :
    ls.newline =
      if ls.pastEol.linenumber + 1 ≥ LJ_MAX_LINE then
        error { ls.pastEol with linenumber := ls.pastEol.linenumber + 1 } ls.pastEol.tok .xlines
      else .ok { ls.pastEol with linenumber := ls.pastEol.linenumber + 1 } := rfl

theorem pastEol_before (isEol : ls.iseol = true) :
    ls.Before ls.pastEol ∧ ls.pastEol.rest.length < ls.rest.length := by
  obtain ⟨b, isChar⟩ := iseol_c isEol
  have shorter := length_tail_of_c isChar
  unfold pastEol
  split
  · refine ⟨(before_next _).trans (before_next _), ?_⟩
    simp only [rest_next, List.length_tail] at shorter ⊢
    omega
  · exact ⟨before_next _, by rw [rest_next]; omega⟩

theorem newline_ends (isEol : ls.iseol = true) :
    Ends ls.newline fun ls' => ls.Before ls' ∧ ls'.rest.length < ls.rest.length := by
  rw [newline_eq]
  split
  · exact ends_error _ _
  · exact pastEol_before isEol

theorem numberLoop_ends (xp : UInt8) {fuel : Nat} (c : LexChar) (enough : ls.rest.length < fuel) :
    Ends (numberLoop xp fuel c ls) fun ls' => ls.Before ls' := by
  induction fuel generalizing ls c with
  | zero => omega
  | succ fuel induction =>
      rw [numberLoop]
      split
      · next more =>
          cases isChar : ls.c with
          | none =>
              rw [isChar] at more
              cases more
          | some b =>
              have shorter := length_tail_of_c isChar
              refine (induction (some b) (by rw [rest_savenext]; omega)).mono fun ls' before => ?_
              exact (before_savenext ls).trans before
      · exact Before.refl ls

theorem hexDigits_ends (n value : Nat) :
    Ends (hexDigits n value ls) fun r => ls.Before r.2 := by
  induction n generalizing ls value with
  | zero => exact Before.refl ls
  | succ n induction =>
      rw [hexDigits]
      split
      · exact (induction _).mono fun r before => (before_next ls).trans before
      · split
        · exact (induction _).mono fun r before => (before_next ls).trans before
        · exact ends_error _ _

theorem escape_ends (ls : Lexer) : Ends ls.escape fun ls' => ls.Before ls' := by
  have hex (n : Nat) (bytes : Nat → GCstr) :
      Ends (hexDigits n 0 ls >>= fun r => pure (r.2.escaped (bytes r.1)))
        fun ls' => ls.Before ls' := by
    refine (hexDigits_ends n 0).bind fun r before => ?_
    exact before.trans (before_escaped _ _)
  unfold escape
  split
  · exact Before.refl ls
  · split
    · exact before_escaped _ _
    · split
      · exact hex 2 fun value => [UInt8.ofNat value]
      · split
        · exact hex 4 uescapeBytes
        · split
          · exact hex 8 uescapeBytes
          · exact ends_error _ _

theorem stringLoop_ends {fuel : Nat} (enough : ls.rest.length < fuel) :
    Ends (stringLoop fuel ls) fun ls' => ls.Before ls' := by
  induction fuel generalizing ls with
  | zero => omega
  | succ fuel induction =>
      rw [stringLoop]
      split
      · exact Before.refl ls
      · split
        · exact ends_error _ _
        · next notEof =>
            obtain ⟨b, isChar⟩ := Option.ne_none_iff_exists'.mp notEof
            have shorter := length_tail_of_c isChar
            split
            · refine (escape_ends ls.next).bind fun ls' before => ?_
              have := before.length
              rw [rest_next] at this
              refine (induction (by omega)).mono fun ls'' before' => ?_
              exact ((before_next ls).trans before).trans before'
            · split
              · next isEol =>
                  refine (newline_ends isEol).bind fun ls' before => ?_
                  refine (induction (by rw [rest_save]; omega)).mono fun ls'' before' => ?_
                  exact before.1.trans before'
              · refine (induction (by rw [rest_savenext]; omega)).mono fun ls' before => ?_
                exact (before_savenext ls).trans before

/-! ## The start of a token -/

/-- Where the blanks and comments before a token stand: after other input, in a
comment or at the second byte of what may be one line break. -/
inductive Skipping
  | blank
  | comment
  | eol (first : UInt8)
  deriving DecidableEq

def isEolByte (b : UInt8) : Bool := b == ch '\n' || b == ch '\r'

/-- The line breaks in some bytes, two bytes of a kind each being one. -/
def lineBreaks : GCstr → Nat
  | [] => 0
  | b :: rest =>
      if isEolByte b then
        match rest with
        | [] => 1
        | b' :: rest =>
            if isEolByte b' && b' != b then lineBreaks rest + 1 else lineBreaks (b' :: rest) + 1
      else lineBreaks rest

/-- The line breaks before the next token and the bytes it starts at. -/
def tokenStart : Skipping → GCstr → Nat × GCstr
  | _, [] => (0, [])
  | skipping, b :: rest =>
      if isEolByte b then
        match skipping with
        | .eol first =>
            if first ≠ b then tokenStart .blank rest
            else ((tokenStart (.eol b) rest).1 + 1, (tokenStart (.eol b) rest).2)
        | _ => ((tokenStart (.eol b) rest).1 + 1, (tokenStart (.eol b) rest).2)
      else if skipping = .comment then tokenStart .comment rest
      else if isBlank (some b) then tokenStart .blank rest
      else if b = ch ';' then tokenStart .comment rest
      else (0, b :: rest)

theorem iseol_eq {b : UInt8} (isChar : ls.c = some b) : ls.iseol = isEolByte b := by
  simp [iseol, isEolByte, isChar]

theorem rest_eq_cons {b : UInt8} (isChar : ls.c = some b) : ls.rest = b :: ls.rest.tail := by
  rw [c_eq_head?] at isChar
  cases bytes : ls.rest with
  | nil => rw [bytes] at isChar; cases isChar
  | cons b' rest =>
      rw [bytes] at isChar
      cases isChar
      rfl

theorem tokenStart_eol_of_not_pair {first : UInt8} {rest : GCstr}
    (notPair : ∀ b, rest.head? = some b → isEolByte b = true → b = first) :
    tokenStart (.eol first) rest = tokenStart .blank rest := by
  cases rest with
  | nil => rfl
  | cons b rest =>
      by_cases isEol : isEolByte b = true
      · have same := notPair b rfl isEol
        simp [tokenStart, same]
      · simp [tokenStart, isEol]

theorem tokenStart_pastEol (isEol : ls.iseol = true) :
    tokenStart .blank ls.rest =
      ((tokenStart .blank ls.pastEol.rest).1 + 1, (tokenStart .blank ls.pastEol.rest).2) := by
  obtain ⟨b, isChar⟩ := iseol_c isEol
  rw [iseol_eq isChar] at isEol
  have past : tokenStart (.eol b) ls.rest.tail = tokenStart .blank ls.pastEol.rest := by
    unfold pastEol
    cases second : ls.next.c with
    | none =>
        have empty : ls.rest.tail = [] := by
          rw [c_eq_head?, rest_next, List.head?_eq_none_iff] at second
          exact second
        simp [iseol, second, empty, tokenStart]
    | some b' =>
        have shape := rest_eq_cons second
        rw [rest_next] at shape
        by_cases pair : isEolByte b' = true ∧ b' ≠ b
        · rw [if_pos (by simp [iseol_eq second, pair.1, isChar, pair.2]), shape, rest_next,
            rest_next, tokenStart, if_pos pair.1]
          simp [pair.2.symm]
        · rw [if_neg (by simpa [iseol_eq second, second, isChar] using pair), rest_next]
          apply tokenStart_eol_of_not_pair
          intro first isFirst isEol'
          rw [shape] at isFirst
          cases isFirst
          by_contra different
          exact pair ⟨isEol', different⟩
  rw [rest_eq_cons isChar, tokenStart, if_pos isEol]
  · simp only [past]
  · intro first same
    cases same

theorem comment_ends {fuel : Nat} (enough : ls.rest.length < fuel) :
    Ends (comment fuel ls) fun ls' => ls.Before ls' := by
  induction fuel generalizing ls with
  | zero => omega
  | succ fuel induction =>
      rw [comment]
      split
      · next more =>
          obtain ⟨b, isChar⟩ : ∃ b, ls.c = some b := by
            rw [← Option.ne_none_iff_exists']
            simpa using (Bool.and_eq_true_iff.mp more).2
          have shorter := length_tail_of_c isChar
          refine (induction (by rw [rest_next]; omega)).mono fun ls' before => ?_
          exact (before_next ls).trans before
      · exact Before.refl ls

theorem comment_error {fuel : Nat} {e : LexError} (fails : comment fuel ls = .error e) :
    e = .outOfFuel := by
  induction fuel generalizing ls with
  | zero =>
      cases fails
      rfl
  | succ fuel induction =>
      rw [comment] at fails
      split at fails
      · exact induction fails
      · cases fails

/-- A comment is left at the line break or the end. -/
theorem tokenStart_comment {fuel : Nat} (left : comment fuel ls = .ok ls') :
    tokenStart .comment ls.rest = tokenStart .blank ls'.rest ∧ ls'.linenumber = ls.linenumber := by
  induction fuel generalizing ls with
  | zero => cases left
  | succ fuel induction =>
      rw [comment] at left
      split at left
      · next more =>
          rw [Bool.and_eq_true_iff] at more
          obtain ⟨b, isChar⟩ : ∃ b, ls.c = some b := by
            rw [← Option.ne_none_iff_exists']
            simpa using more.2
          have notEol : isEolByte b = false := by simpa [iseol_eq isChar] using more.1
          obtain ⟨start, line⟩ := induction left
          rw [rest_next] at start
          refine ⟨?_, line⟩
          rw [rest_eq_cons isChar, ← start]
          simp [tokenStart, notEol]
      · next done =>
          obtain rfl := Except.ok.inj left
          refine ⟨?_, rfl⟩
          cases isChar : ls.c with
          | none =>
              rw [c_eq_head?, List.head?_eq_none_iff] at isChar
              rw [isChar]
              rfl
          | some b =>
              have isEol : isEolByte b = true := by simpa [isChar, iseol_eq isChar] using done
              rw [rest_eq_cons isChar]
              simp [tokenStart, isEol]

/-! ## Names -/

/-- A byte that is not escaped ends the name. -/
def nameEnds : GCstr → Bool
  | [] => false
  | b :: rest =>
      if endsName (some b) then true
      else if b = ch '\\' then
        match rest with
        | [] => false
        | _ :: rest => nameEnds rest
      else nameEnds rest

theorem nameEnds_cons (b : UInt8) (rest : GCstr) :
    nameEnds (b :: rest) =
      if endsName (some b) then true
      else if b = ch '\\' then
        match rest with
        | [] => false
        | _ :: rest => nameEnds rest
      else nameEnds rest := nameEnds.eq_def (b :: rest)

theorem nameLoop_ends {fuel : Nat} (ended : nameEnds ls.rest = true) (enough : ls.rest.length < fuel) :
    Ends (nameLoop fuel ls) fun ls' => ls.Before ls' ∧ endsName ls'.c = true := by
  induction fuel generalizing ls with
  | zero => omega
  | succ fuel induction =>
      rw [nameLoop]
      cases isChar : ls.c with
      | none =>
          rw [c_eq_head?, List.head?_eq_none_iff] at isChar
          rw [isChar] at ended
          cases ended
      | some b =>
          have shorter := length_tail_of_c isChar
          have shape := rest_eq_cons isChar
          rw [shape, nameEnds_cons] at ended
          split
          · next isEnd => exact ⟨Before.refl ls, by rw [isChar]; exact isEnd⟩
          · next notEnd =>
              rw [if_neg notEnd] at ended
              split
              · next isEscape =>
                  cases isEscape
                  rw [if_pos rfl] at ended
                  cases rest : ls.rest.tail with
                  | nil => rw [rest] at ended; cases ended
                  | cons b rest' =>
                      rw [rest] at ended shorter
                      have after : ls.next.savenext.rest = rest' := by simp [rest]
                      refine (induction (by rw [after]; exact ended) (by
                        rw [after]
                        simp only [List.length_cons] at shorter
                        omega)).mono fun ls' before => ?_
                      exact ⟨((before_next _).trans (before_savenext _)).trans before.1, before.2⟩
              · next notEscape =>
                  rw [if_neg fun same => notEscape (by rw [same])] at ended
                  refine (induction (by rw [rest_savenext]; exact ended)
                    (by rw [rest_savenext]; omega)).mono fun ls' before => ?_
                  exact ⟨(before_savenext _).trans before.1, before.2⟩

/-- A name that runs to the end of input is never left. -/
theorem nameLoop_never {fuel : Nat} (cut : nameEnds ls.rest = false) :
    nameLoop fuel ls = .error .outOfFuel := by
  induction fuel generalizing ls with
  | zero => rfl
  | succ fuel induction =>
      rw [nameLoop]
      cases isChar : ls.c with
      | none =>
          rw [c_eq_head?, List.head?_eq_none_iff] at isChar
          rw [if_neg (by decide), if_neg (by decide)]
          exact induction (by rw [rest_savenext, isChar]; rfl)
      | some b =>
          have shape := rest_eq_cons isChar
          rw [shape, nameEnds_cons] at cut
          split at cut
          · cases cut
          · next notEnd =>
              rw [if_neg notEnd]
              split at cut
              · next isEscape =>
                  rw [if_pos (by rw [isEscape])]
                  apply induction
                  rw [rest_savenext, rest_next]
                  cases rest : ls.rest.tail with
                  | nil => rfl
                  | cons b rest' =>
                      rw [rest] at cut
                      exact cut
              · next notEscape =>
                  rw [if_neg fun same => notEscape (Option.some.inj same)]
                  exact induction (by rw [rest_savenext]; exact cut)

/-! ## One call -/

theorem isident_of_digit {b : UInt8} (digit : ch '0' ≤ b ∧ b ≤ ch '9') :
    ljCharIsident (some b) = true := by
  have table : ∀ n : Fin 256, 48 ≤ n.val ∧ n.val ≤ 57 →
      ljCharIsident (some (UInt8.ofNat n)) = true := by decide +kernel
  have isDigit := table ⟨b.toNat, b.toNat_lt⟩ ⟨UInt8.le_iff_toNat_le.mp digit.1,
    UInt8.le_iff_toNat_le.mp digit.2⟩
  rwa [UInt8.ofNat_toNat] at isDigit

/-- The loop takes a digit at least. -/
theorem numberLoop_digit (xp : UInt8) {fuel : Nat} (c : LexChar) {b : UInt8} (isChar : ls.c = some b)
    (digit : ch '0' ≤ b ∧ b ≤ ch '9') (enough : ls.rest.length < fuel) :
    Ends (numberLoop xp fuel c ls) fun ls' =>
      ls.Before ls' ∧ ls'.rest.length < ls.rest.length := by
  have shorter := length_tail_of_c isChar
  cases fuel with
  | zero => omega
  | succ fuel =>
      rw [numberLoop, if_pos (by simp [isChar, isident_of_digit digit])]
      refine (numberLoop_ends xp _ (by rw [rest_savenext]; omega)).mono fun ls' before => ?_
      have := before.length
      rw [rest_savenext] at this
      exact ⟨(before_savenext ls).trans before, by omega⟩

theorem number_ends [StrScan] {fuel : Nat} (starts : startsNumber ls.c = true)
    (enough : ls.rest.length < fuel) :
    Ends (ls.number fuel) fun r => ls.Before r.2 ∧ r.2.rest.length < ls.rest.length := by
  obtain ⟨b, isChar⟩ : ∃ b, ls.c = some b := by
    rw [← Option.ne_none_iff_exists']
    rintro isNone
    rw [isNone] at starts
    cases starts
  have shorter := length_tail_of_c isChar
  unfold number
  dsimp only
  generalize isSigned : (ls.c == some (ch '+') || ls.c == some (ch '-')) = signed
  have loop (xp : UInt8) : Ends (numberLoop xp fuel (if signed then ls.savenext else ls).c
      (if (if signed then ls.savenext else ls).c == some (ch '0') then
        (if signed then ls.savenext else ls).savenext
      else (if signed then ls.savenext else ls))) fun ls' =>
        ls.Before ls' ∧ ls'.rest.length < ls.rest.length := by
    have shorterBy {ls₁ : Lexer} (c : LexChar) (first : ls.Before ls₁)
        (taken : ls₁.rest.length < ls.rest.length) :
        Ends (numberLoop xp fuel c ls₁) fun ls' =>
          ls.Before ls' ∧ ls'.rest.length < ls.rest.length :=
      (numberLoop_ends xp c (by omega)).mono fun ls' before =>
        ⟨first.trans before, before.length.trans_lt taken⟩
    have one : ls.savenext.rest.length < ls.rest.length := by rw [rest_savenext]; omega
    cases signed with
    | true =>
        simp only [if_true]
        split
        · exact shorterBy _ ((before_savenext ls).trans (before_savenext _))
            ((before_savenext ls.savenext).length.trans_lt one)
        · exact shorterBy _ (before_savenext ls) one
    | false =>
        simp only [Bool.false_eq_true, if_false]
        split
        · exact shorterBy _ (before_savenext ls) one
        · apply numberLoop_digit xp _ isChar _ enough
          rw [isChar] at isSigned starts
          have notSign : b ≠ ch '+' ∧ b ≠ ch '-' := by simpa using isSigned
          simpa [startsNumber, notSign.1, notSign.2] using starts
  refine (loop _).bind fun ls' before => ?_
  split
  · exact before
  · exact before
  · exact before
  · exact before
  · exact ends_error _ _

theorem string_ends {fuel : Nat} {b : UInt8} (isChar : ls.c = some b) (enough : ls.rest.length < fuel) :
    Ends (ls.string fuel) fun r => ls.Before r.2 ∧ r.2.rest.length < ls.rest.length := by
  have shorter := length_tail_of_c isChar
  refine (stringLoop_ends (by rw [rest_savenext]; omega)).bind fun ls' before => ?_
  have length := before.length
  rw [rest_savenext] at length
  refine ⟨((before_savenext ls).trans before).trans (before_savenext ls'), ?_⟩
  change ls'.savenext.rest.length < _
  rw [rest_savenext, List.length_tail]
  omega

/-- The first character of a name. -/
def startsName (c : LexChar) : Bool :=
  c != none && !endsName c && c != some (ch ';') && c != some (ch '"') && !startsNumber c

theorem name_ends {fuel : Nat} (starts : startsName ls.c = true) (ended : nameEnds ls.rest = true)
    (enough : ls.rest.length < fuel) :
    Ends (ls.name fuel) fun r => ls.Before r.2 ∧ r.2.rest.length < ls.rest.length := by
  refine (nameLoop_ends ended enough).bind fun ls' before => ⟨before.1, ?_⟩
  rcases Nat.lt_or_eq_of_le before.1.length with less | same
  · exact less
  · have unmoved : ls'.rest = ls.rest := List.IsSuffix.eq_of_length before.1 same
    have atEnd := before.2
    rw [c_eq_head?, unmoved, ← c_eq_head?] at atEnd
    simp [startsName, atEnd] at starts

/-- The next token is a name that the input ends in. The line breaks before it
must be within the limit. -/
def CutOff (ls : Lexer) : Prop :=
  let start := tokenStart .blank ls.rest
  startsName start.2.head? = true ∧ nameEnds start.2 = false ∧
    (start.1 = 0 ∨ ls.linenumber + start.1 < LJ_MAX_LINE)

/-- A call ends in a lexer error or in a token; a token other than `<eof>` takes
at least one byte of the input, and without input it is `<eof>`. -/
def Progress (ls : Lexer) (r : Token × Lexer) : Prop :=
  ls.Before r.2 ∧ (r.1 ≠ .eof → r.2.rest.length < ls.rest.length) ∧ (ls.rest = [] → r.1 = .eof)

theorem tokenStart_blank (blank : isBlank ls.c = true) :
    tokenStart .blank ls.next.rest = tokenStart .blank ls.rest := by
  cases isChar : ls.c with
  | none =>
      rw [isChar] at blank
      cases blank
  | some b =>
      rw [isChar] at blank
      have notEol : isEolByte b = false := by
        unfold isBlank at blank
        simp only [Bool.or_eq_true, beq_iff_eq, Option.some.injEq] at blank
        rcases blank with ((rfl | rfl) | rfl) | rfl <;> rfl
      rw [rest_eq_cons isChar, rest_next]
      simp [tokenStart, notEol, blank]

theorem tokenStart_semicolon (isComment : ls.c = some (ch ';')) :
    tokenStart .comment ls.next.rest = tokenStart .blank ls.rest := by
  rw [rest_eq_cons isComment, rest_next]
  rfl

/-- Where a token starts. -/
theorem tokenStart_here (notEol : ls.iseol ≠ true) (notBlank : isBlank ls.c ≠ true)
    (notComment : ls.c ≠ some (ch ';')) : tokenStart .blank ls.rest = (0, ls.rest) := by
  cases isChar : ls.c with
  | none =>
      rw [c_eq_head?, List.head?_eq_none_iff] at isChar
      rw [isChar]
      rfl
  | some b =>
      rw [isChar] at notBlank notComment
      rw [iseol_eq isChar] at notEol
      have notSemicolon : b ≠ ch ';' := fun same => notComment (by rw [same])
      rw [rest_eq_cons isChar]
      simp [tokenStart, notEol, notBlank, notSemicolon]

/-- What is skipped does not change whether the next token is cut off. -/
theorem cutOff_congr (start : tokenStart .blank ls'.rest = tokenStart .blank ls.rest)
    (line : ls'.linenumber = ls.linenumber) : ls'.CutOff ↔ ls.CutOff := by
  rw [CutOff, CutOff, start, line]

theorem cutOff_comment {steps : Nat} (isComment : ls.c = some (ch ';'))
    (left : comment steps ls.next = .ok ls') : ls'.CutOff ↔ ls.CutOff := by
  obtain ⟨start, line⟩ := tokenStart_comment left
  exact cutOff_congr (start.symm.trans (tokenStart_semicolon isComment)) line

theorem linenumber_pastEol (ls : Lexer) : ls.pastEol.linenumber = ls.linenumber := by
  unfold pastEol
  split <;> rfl

theorem cutOff_newline (isEol : ls.iseol = true) (left : ls.newline = .ok ls') :
    ls'.CutOff ↔ ls.CutOff := by
  have start := tokenStart_pastEol isEol
  rw [newline_eq, linenumber_pastEol] at left
  split at left
  · cases left
  · next within =>
      obtain rfl := Except.ok.inj left
      rw [CutOff, CutOff, start]
      change startsName (tokenStart .blank ls.pastEol.rest).2.head? = true ∧
        nameEnds (tokenStart .blank ls.pastEol.rest).2 = false ∧
        ((tokenStart .blank ls.pastEol.rest).1 = 0 ∨
          ls.linenumber + 1 + ((tokenStart .blank ls.pastEol.rest).1 : Int) < LJ_MAX_LINE) ↔ _
      dsimp only
      generalize (tokenStart .blank ls.pastEol.rest).1 = lines
      refine and_congr_right fun _ => and_congr_right fun _ => ?_
      push_cast
      lia

/-- The line breaks before a name that is cut off are within the limit. -/
theorem CutOff.newline (cut : ls.CutOff) (isEol : ls.iseol = true) :
    ∃ ls', ls.newline = .ok ls' := by
  have within := cut.2.2
  rw [tokenStart_pastEol isEol] at within
  dsimp only at within
  push_cast at within
  rw [newline_eq, linenumber_pastEol, if_neg (by lia)]
  exact ⟨_, rfl⟩

theorem endsName_eq_false {c : LexChar} (notEol : c ≠ some (ch '\n') ∧ c ≠ some (ch '\r'))
    (notBlank : isBlank c ≠ true) (notParen : c ≠ some (ch '(') ∧ c ≠ some (ch ')'))
    (notColon : c ≠ some (ch ':')) : endsName c = false := by
  simp only [isBlank, Bool.or_eq_true, beq_iff_eq, not_or, ne_eq] at notBlank
  simp [endsName, notEol, notBlank, notParen, notColon]

theorem nextLoop_ends [StrScan] {steps fuel : Nat} (notCut : ¬ls.CutOff)
    (enoughSteps : ls.rest.length < steps) (enough : ls.rest.length < fuel) :
    Ends (nextLoop steps fuel ls) ls.Progress := by
  induction fuel generalizing ls with
  | zero => omega
  | succ fuel induction =>
      -- What is skipped before the token is consumed as well.
      have skip {ls' : Lexer} {r : Token × Lexer} (before : ls.Before ls')
          (shorter : ls'.rest.length < ls.rest.length) (progress : ls'.Progress r) :
          ls.Progress r := by
        refine ⟨before.trans progress.1, fun _ => progress.1.length.trans_lt shorter, ?_⟩
        intro empty
        rw [empty] at shorter
        cases shorter
      have token {tok : Token} {b : UInt8} (isChar : ls.c = some b) : ls.Progress (tok, ls.next) := by
        have shorter := length_tail_of_c isChar
        refine ⟨before_next ls, fun _ => by rw [rest_next]; omega, fun empty => ?_⟩
        rw [empty] at shorter
        cases shorter
      have taken {r : Token × Lexer} {b : UInt8} (isChar : ls.c = some b)
          (progress : ls.Before r.2 ∧ r.2.rest.length < ls.rest.length) : ls.Progress r := by
        refine ⟨progress.1, fun _ => progress.2, fun empty => ?_⟩
        rw [rest_eq_cons isChar] at empty
        cases empty
      rw [nextLoop]
      split
      · next isEol =>
          cases left : ls.newline with
          | error e =>
              have ends := newline_ends isEol
              rw [left] at ends
              exact ends
          | ok ls' =>
              have ends := newline_ends isEol
              rw [left] at ends
              have cut := cutOff_newline isEol left
              exact (induction (cut.not.mpr notCut) (by have := ends.2; omega)
                (by have := ends.2; omega)).mono fun r => skip ends.1 ends.2
      split
      · next notEol isBlank' =>
          obtain ⟨b, isChar⟩ : ∃ b, ls.c = some b := by
            rw [← Option.ne_none_iff_exists']
            intro isNone
            rw [isNone] at isBlank'
            cases isBlank'
          have shorter := length_tail_of_c isChar
          have one : ls.next.rest.length < ls.rest.length := by rw [rest_next]; omega
          have cut : ls.next.CutOff ↔ ls.CutOff := cutOff_congr (tokenStart_blank isBlank') rfl
          exact (induction (cut.not.mpr notCut) (by omega) (by omega)).mono fun r =>
            skip (before_next ls) one
      split
      · next isComment =>
          have shorter := length_tail_of_c isComment
          have short : ls.next.rest.length < steps := by rw [rest_next]; omega
          have ends := comment_ends short
          cases left : comment steps ls.next with
          | error e =>
              rw [left] at ends
              exact ends
          | ok ls' =>
              rw [left] at ends
              have one : ls'.rest.length < ls.rest.length := by
                have := Before.length ends
                rw [rest_next] at this
                omega
              have cut := cutOff_comment isComment left
              exact (induction (cut.not.mpr notCut) (by omega) (by omega)).mono fun r =>
                skip ((before_next ls).trans ends) one
      split
      · next isChar => exact token isChar
      split
      · next isChar => exact token isChar
      split
      · next isChar => exact token isChar
      split
      · next isChar => exact (string_ends isChar enoughSteps).mono fun r => taken isChar
      split
      · next starts =>
          obtain ⟨b, isChar⟩ : ∃ b, ls.c = some b := by
            rw [← Option.ne_none_iff_exists']
            intro isNone
            rw [isNone] at starts
            cases starts
          exact (number_ends starts enoughSteps).mono fun r => taken isChar
      split
      · next isNone => exact ⟨Before.refl ls, fun notEof => absurd rfl notEof, fun _ => rfl⟩
      · next notEol notBlank notComment notLparen notRparen notColon notQuote notNumber notEof =>
          obtain ⟨b, isChar⟩ := Option.ne_none_iff_exists'.mp notEof
          have starts : startsName ls.c = true := by
            have notEnd := endsName_eq_false (by simpa [iseol] using notEol) notBlank
              ⟨notLparen, notRparen⟩ notColon
            simp [startsName, notEof, notEnd, notComment, notQuote, notNumber]
          have ended : nameEnds ls.rest = true := by
            rw [CutOff, tokenStart_here notEol notBlank notComment, ← c_eq_head?] at notCut
            simpa [starts] using notCut
          exact (name_ends starts ended enoughSteps).mono fun r => taken isChar

theorem nextLoop_never [StrScan] {steps fuel : Nat} (cut : ls.CutOff) :
    nextLoop steps fuel ls = .error .outOfFuel := by
  induction fuel generalizing ls with
  | zero => rfl
  | succ fuel induction =>
      rw [nextLoop]
      split
      · next isEol =>
          obtain ⟨ls', left⟩ := cut.newline isEol
          rw [left]
          exact induction ((cutOff_newline isEol left).mpr cut)
      split
      · next isBlank' => exact induction ((cutOff_congr (tokenStart_blank isBlank') rfl).mpr cut)
      split
      · next isComment =>
          cases left : comment steps ls.next with
          | error e =>
              rw [comment_error left]
              rfl
          | ok ls' => exact induction ((cutOff_comment isComment left).mpr cut)
      next notEol notBlank notComment =>
      obtain ⟨starts, notEnds, -⟩ := cut
      rw [tokenStart_here notEol notBlank notComment] at starts notEnds
      rw [← c_eq_head?] at starts
      simp only [startsName, Bool.and_eq_true, bne_iff_ne, ne_eq, Bool.not_eq_true'] at starts
      obtain ⟨⟨⟨⟨notEof, notEnd⟩, -⟩, notQuote⟩, notNumber⟩ := starts
      have notByte (b : UInt8) (isEnd : endsName (some b) = true) : ls.c ≠ some b := by
        intro same
        rw [same, isEnd] at notEnd
        cases notEnd
      rw [if_neg (notByte _ rfl), if_neg (notByte _ rfl), if_neg (notByte _ rfl), if_neg notQuote,
        if_neg (by simp [notNumber]), if_neg notEof, name, nameLoop_never notEnds]
      rfl

/-! ## Repeated calls -/

/-- The next call ends: with enough steps it makes progress or raises a lexer
error, however many more it may take. -/
def NextEnds [StrScan] (ls : Lexer) : Prop :=
  ∃ enough, ∀ fuel ≥ enough, Ends (ljLexNext fuel ls) ls.Progress

/-- A call ends exactly where the next token is not a name cut off by the end of
input. -/
theorem nextEnds_iff [StrScan] (ls : Lexer) : ls.NextEnds ↔ ¬ls.CutOff := by
  constructor
  · rintro ⟨enough, ends⟩ cut
    have never : ljLexNext enough ls = .error .outOfFuel := by
      have isCut : CutOff { ls with lastline := ls.linenumber, sb := [] } := cut
      rw [ljLexNext, nextLoop_never isCut]
      rfl
    have ended := ends enough le_rfl
    rw [never] at ended
    exact ended rfl
  · intro notCut
    refine ⟨ls.rest.length + 1, fun fuel enough => ?_⟩
    have fresh : ¬CutOff { ls with lastline := ls.linenumber, sb := [] } := notCut
    have length : Lexer.rest { ls with lastline := ls.linenumber, sb := [] } = ls.rest := rfl
    refine (nextLoop_ends fresh (by rw [length]; omega) (by rw [length]; omega)).bind
      fun r progress => progress

/-- The lexers repeated calls come to, from a fresh one on the pieces of a
reader. -/
inductive Reached [StrScan] (rdata : List Piece) : Lexer → Prop
  | setup {fuel : Nat} {ls : Lexer} (fresh : ljLexSetup fuel rdata = .ok (false, ls)) :
      Reached rdata ls
  | next {fuel : Nat} {tok : Token} {ls ls' : Lexer} (before : Reached rdata ls)
      (call : ljLexNext fuel ls = .ok (tok, ls')) : Reached rdata ls'

/-- The scanner ends on an input exactly if no call of it comes to a name that
the input ends in. -/
theorem scanner_ends_iff [StrScan] (rdata : List Piece) :
    (∀ ls, Reached rdata ls → ls.NextEnds) ↔ ∀ ls, Reached rdata ls → ¬ls.CutOff :=
  forall₂_congr fun ls _ => nextEnds_iff ls

/-- The one-byte input `a` is scanned for ever. -/
theorem name_at_end_never_ends :
    ¬∀ (_ : StrScan) (rdata : List Piece) (ls : Lexer), Reached rdata ls → ls.NextEnds := by
  intro claim
  let _ : StrScan := ⟨fun _ => .error⟩
  have fresh : ljLexSetup 1 [⟨ch 'a', []⟩] = .ok (false, { input := .char (ch 'a') [] [] }) := rfl
  have ends := claim _ _ _ (.setup fresh)
  rw [nextEnds_iff] at ends
  exact ends ⟨by decide, by decide, by decide⟩

end Lexer

end TvmJit
