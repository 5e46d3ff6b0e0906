import TvmJit.Lex.Numerals

/-! The two TP readers on one input: calls of `lj_lex_next` from `lj_lex_setup` on, and
calls of `P:next` from `P:shebang` on. -/

namespace TvmJit

namespace Lexer

variable {ls : Lexer} {p : P}

/-! ## One call -/

/-- The next token is one both readers know. -/
def plainAt (rest : GCstr) : Bool :=
  let start := (tokenStart .blank rest).2
  if start.head? = some (ch '"') then plainString start.tail
  else if startsNumber start.head? then plainNumber start
  else true

theorem comment_sb {fuel : Nat} {ls' : Lexer} (left : comment fuel ls = .ok ls') :
    ls'.sb = ls.sb := by
  induction fuel generalizing ls with
  | zero => cases left
  | succ fuel induction =>
      rw [comment] at left
      split at left
      · rw [induction left]
        rfl
      · rw [Except.ok.inj left]

theorem newline_sb {ls' : Lexer} (past : ls.newline = .ok ls') : ls'.sb = ls.sb := by
  have kept : ls.pastEol.sb = ls.sb := by
    unfold pastEol
    split <;> rfl
  rw [newline_eq] at past
  split at past
  · cases past
  · rw [← Except.ok.inj past]
    exact kept

theorem string_agrees {fuel : Nat} (same : Same ls p) (isQuote : ls.c = some (ch '"'))
    (plain : plainString ls.rest.tail = true) :
    Agrees SameToken (ls.string fuel) (p.readString fuel) := by
  have loop : Agrees _ (stringLoop fuel ls.savenext) (p.saveAndNext.stringLoop fuel) :=
    stringLoop_agrees (same.savenext isQuote) (by rwa [rest_savenext])
  refine loop.bind fun ls' p' after => ?_
  have closed := after.1.savenext after.2.2
  refine ⟨?_, closed⟩
  change Token.string ls'.savenext.sb.tail.dropLast = .string p'.saveAndNext.buff.tail.dropLast
  rw [closed.sb]

theorem name_agrees {fuel : Nat} (same : Same ls p) : Agrees SameToken (ls.name fuel) (p.readName fuel) := by
  refine (nameLoop_agrees same).bind fun ls' p' after => ⟨?_, after⟩
  change Token.name ls'.sb = .name p'.buff
  rw [after.sb]

section

variable [StrScan] [Tonumber] {fuel steps : Nat}

theorem nextLoop_agrees (numbers : SameNumbers) (same : Same ls p) (fresh : ls.sb = [])
    (plain : plainAt ls.rest = true) (enough : ls.rest.length < steps) :
    Agrees SameToken (nextLoop steps fuel ls) (p.nextLoop steps fuel) := by
  induction fuel generalizing ls p with
  | zero => exact ⟨fun _ => rfl, fun _ => rfl⟩
  | succ fuel induction =>
      rw [nextLoop, P.nextLoop, same.c, find_newline, find_space, find_digitSign]
      by_cases isEol : ls.iseol = true
      · rw [if_pos isEol, if_pos isEol]
        obtain ⟨ls', past, after, rest⟩ := newline_agrees same isEol
        have shorter := (pastEol_before isEol).2
        rw [past]
        refine induction after ((newline_sb past).trans fresh) ?_ (by rw [rest]; omega)
        rw [plainAt, tokenStart_pastEol isEol] at plain
        rw [plainAt, rest]
        exact plain
      rw [if_neg isEol, if_neg isEol]
      by_cases blank : isBlank ls.c = true
      · rw [if_pos blank, if_pos blank]
        refine induction same.next fresh ?_ ((before_next ls).length.trans_lt enough)
        rwa [plainAt, tokenStart_blank blank]
      rw [if_neg blank, if_neg blank]
      by_cases semicolon : ls.c = some (ch ';')
      · rw [if_pos semicolon, if_pos semicolon]
        have agrees : Agrees _ (comment steps ls.next) (p.next_.comment steps) :=
          comment_agrees same.next
        cases left : comment steps ls.next with
        | error e =>
            rw [left] at agrees
            cases left' : p.next_.comment steps with
            | error e' => rwa [left'] at agrees
            | ok p' => rw [left'] at agrees; cases agrees
        | ok ls' =>
            rw [left] at agrees
            cases left' : p.next_.comment steps with
            | error e' => rw [left'] at agrees; cases agrees
            | ok p' =>
                rw [left'] at agrees
                obtain ⟨after, before⟩ := agrees
                have start := (tokenStart_comment left).1
                rw [tokenStart_semicolon semicolon] at start
                refine induction after ((comment_sb left).trans fresh) ?_
                  (((before_next ls).trans before).length.trans_lt enough)
                rwa [plainAt, ← start]
      rw [if_neg semicolon, if_neg semicolon]
      have here := tokenStart_here isEol blank semicolon
      rw [plainAt, here] at plain
      dsimp only at plain
      rw [← c_eq_head?] at plain
      by_cases lparen : ls.c = some (ch '(')
      · rw [if_pos lparen, if_pos lparen]
        exact ⟨rfl, same.next⟩
      rw [if_neg lparen, if_neg lparen]
      by_cases rparen : ls.c = some (ch ')')
      · rw [if_pos rparen, if_pos rparen]
        exact ⟨rfl, same.next⟩
      rw [if_neg rparen, if_neg rparen]
      by_cases colon : ls.c = some (ch ':')
      · rw [if_pos colon, if_pos colon]
        exact ⟨rfl, same.next⟩
      rw [if_neg colon, if_neg colon]
      by_cases quote : ls.c = some (ch '"')
      · rw [if_pos quote, if_pos quote]
        rw [if_pos quote] at plain
        exact string_agrees same quote plain
      rw [if_neg quote, if_neg quote]
      rw [if_neg quote] at plain
      by_cases number : startsNumber ls.c = true
      · rw [if_pos number, if_pos number]
        rw [if_pos number] at plain
        exact number_agrees numbers same fresh number plain enough
      rw [if_neg number, if_neg number]
      by_cases eof : ls.c = none
      · rw [if_pos eof, if_pos eof]
        exact ⟨rfl, same⟩
      · rw [if_neg eof, if_neg eof]
        exact name_agrees same

theorem next_agrees (numbers : SameNumbers) (same : Same ls p) (plain : plainAt ls.rest = true)
    (enough : ls.rest.length < fuel) :
    Agrees SameToken (ljLexNext fuel ls) (p.next fuel) := by
  have started : Same { ls with lastline := ls.linenumber, sb := [] }
      { p with lastline := p.linenumber, buff := [] } :=
    ⟨same.rest, rfl, same.linenumber, same.linenumber, same.few⟩
  have loop : Agrees SameToken (nextLoop fuel fuel _) (P.nextLoop fuel fuel _) :=
    nextLoop_agrees numbers started rfl plain enough
  rw [ljLexNext, P.next, ← bind_pure (P.nextLoop fuel fuel _)]
  refine loop.bind fun r r' after => ⟨after.1, ?_⟩
  exact ⟨after.2.rest, after.2.sb, after.2.linenumber, after.2.lastline, after.2.few⟩

end

/-! ## Sequences of calls -/

/-- A token and the line numbers of the state after its call. -/
abbrev Read := Token × BCLine × BCLine

/-- What `n` calls of `lj_lex_next` return. -/
def tokens [StrScan] (fuel : Nat) : Nat → Lexer → Except LexError (List Read)
  | 0, _ => .ok []
  | n + 1, ls => do
      let (token, ls) ← ljLexNext fuel ls
      let rest ← tokens fuel n ls
      return (token, ls.linenumber, ls.lastline) :: rest

/-- What `n` calls of `P:next` return. -/
def P.tokens [Tonumber] (fuel : Nat) : Nat → P → Except ReaderError (List Read)
  | 0, _ => .ok []
  | n + 1, p => do
      let (token, p) ← p.next fuel
      let rest ← P.tokens fuel n p
      return (token, p.linenumber, p.lastline) :: rest

/-- A call that returns leaves a part of the input. -/
theorem next_before [StrScan] {fuel : Nat} {tok : Token} {ls' : Lexer} (enough : ls.rest.length < fuel)
    (call : ljLexNext fuel ls = .ok (tok, ls')) : ls.Before ls' := by
  have notCut : ¬CutOff { ls with lastline := ls.linenumber, sb := [] } := by
    intro cut
    rw [ljLexNext, nextLoop_never cut] at call
    cases call
  have ends : Ends (ljLexNext fuel ls) ls.Progress :=
    (nextLoop_ends notCut enough enough).bind fun r progress => progress
  rw [call] at ends
  exact ends.1

theorem tokens_agree [StrScan] [Tonumber] {fuel : Nat} {rdata : List Piece} (numbers : SameNumbers) (reached : Reached rdata ls)
    (plain : ∀ ls, Reached rdata ls → plainAt ls.rest = true) (same : Same ls p)
    (enough : ls.rest.length < fuel) (n : Nat) :
    Agrees Eq (tokens fuel n ls) (P.tokens fuel n p) := by
  induction n generalizing ls p with
  | zero => rfl
  | succ n induction =>
      rw [tokens, P.tokens]
      have call := next_agrees numbers same (plain ls reached) enough
      cases run : ljLexNext fuel ls with
      | error e =>
          rw [run] at call
          cases run' : p.next fuel with
          | error e' => rwa [run'] at call
          | ok r' => rw [run'] at call; cases call
      | ok r =>
          rw [run] at call
          cases run' : p.next fuel with
          | error e' => rw [run'] at call; cases call
          | ok r' =>
              rw [run'] at call
              obtain ⟨token, after⟩ := call
              have before := next_before enough run
              refine (induction (.next reached run) after (before.length.trans_lt enough)).bind
                fun rest rest' equal => ?_
              change (_, _, _) :: rest = (_, _, _) :: rest'
              rw [token, after.linenumber, after.lastline, equal]

/-! ## Setup -/

/-- A BOM is whole in the first piece, where `lj_lex_setup` looks for it. -/
def plainBom : List Piece → Bool
  | [] => true
  | piece :: _ => piece.first != 0xEF || piece.others.take 2 == [0xBB, 0xBF]

/-- The bytes behind a header line, where both readers end it: at a newline, with the
carriage return next to it. -/
def behindHeader : GCstr → Option GCstr
  | [] => none
  | b :: rest =>
      if b = ch '\n' then some (if rest.head? = some (ch '\r') then rest.tail else rest)
      else if b = ch '\r' then
        if rest.head? = some (ch '\n') ∧ rest.tail.head? ≠ some (ch '\r') then some rest.tail
        else none
      else behindHeader rest

/-- Both readers leave the header line there is behind a BOM, and it is not the
signature of bytecode that follows. -/
def plainHeader (text : GCstr) : Bool :=
  if text.head? = some (ch '#') then
    (behindHeader text).any fun rest => rest.head? != some LUA_SIGNATURE
  else text.head? != some LUA_SIGNATURE

theorem rest_pastEol (ls : Lexer) :
    ls.pastEol.rest = if ls.next.iseol && ls.next.c != ls.c then ls.rest.tail.tail
      else ls.rest.tail := by
  unfold pastEol
  split
  · rw [rest_next, rest_next]
  · rw [rest_next]

/-- The byte that makes a pair with a newline. -/
theorem pair_newline (isNewline : ls.c = some (ch '\n')) :
    (ls.next.iseol && ls.next.c != ls.c) = (ls.next.c == some (ch '\r')) := by
  unfold iseol
  rw [isNewline]
  cases ls.next.c with
  | none => rfl
  | some c =>
      simp only [ch]
      grind

/-- The byte that makes a pair with a carriage return. -/
theorem pair_return (isReturn : ls.c = some (ch '\r')) :
    (ls.next.iseol && ls.next.c != ls.c) = (ls.next.c == some (ch '\n')) := by
  unfold iseol
  rw [isReturn]
  cases ls.next.c with
  | none => rfl
  | some c =>
      simp only [ch]
      grind

/-- A carriage return with the newline behind it is left like the newline alone. -/
theorem P.inclinenumber_return {p : P} (isReturn : p.current = some (ch '\r'))
    (isNewline : p.next_.current = some (ch '\n'))
    (noReturn : p.next_.next_.current ≠ some (ch '\r')) :
    p.next_.inclinenumber = p.inclinenumber := by
  have pair : (find TvmJit.newline p.next_.current && p.next_.current != p.current) = true := by
    rw [isNewline, isReturn]
    decide +kernel
  have alone : (find TvmJit.newline p.next_.next_.current &&
      p.next_.next_.current != p.next_.current) = false := by
    rw [isNewline]
    cases next : p.next_.next_.current with
    | none => rfl
    | some c =>
        have notReturn : c ≠ ch '\r' := fun isReturn => noReturn (next.trans (congrArg some isReturn))
        rw [find_newline_eq, Option.any_some, isEolByte]
        grind
  rw [P.inclinenumber, P.inclinenumber, pair, alone]
  rfl

theorem bom_agrees {rdata : List Piece} (plain : plainBom rdata = true)
    (few : 1 + lineBreaks (rdata.flatMap Piece.bytes) < LJ_MAX_LINE) :
    Same (skipBom { input := .more rdata }).1 (P.setinput (rdata.flatMap Piece.bytes)).bom := by
  have start : Same { input := .more rdata } (P.setinput (rdata.flatMap Piece.bytes)) := by
    have bytes : (LexInput.more rdata).rest = rdata.flatMap Piece.bytes := by
      cases rdata <;> rfl
    refine ⟨bytes, rfl, rfl, rfl, ?_⟩
    change 1 + (lineBreaks (LexInput.more rdata).rest : Int) < LJ_MAX_LINE
    rw [bytes]
    exact few
  cases rdata with
  | nil => exact start
  | cons piece rdata =>
      obtain ⟨first, others⟩ := piece
      by_cases isBom : first = 0xEF
      · subst isBom
        have whole : others.take 2 = [0xBB, 0xBF] := by simpa [plainBom] using plain
        obtain ⟨more, rfl⟩ : ∃ more, others = 0xBB :: 0xBF :: more :=
          ⟨others.drop 2, by rw [← List.take_append_drop 2 others, whole]; rfl⟩
        have left : (skipBom { input := .more (⟨0xEF, 0xBB :: 0xBF :: more⟩ :: rdata) }).1.rest =
            more ++ rdata.flatMap Piece.bytes :=
          rest_next { input := .char 0xEF more rdata }
        refine ⟨left, rfl, rfl, rfl, ?_⟩
        have fewer : lineBreaks (more ++ rdata.flatMap Piece.bytes) ≤
            lineBreaks (List.flatMap Piece.bytes (⟨0xEF, 0xBB :: 0xBF :: more⟩ :: rdata)) :=
          lineBreaks_suffix ⟨[0xEF, 0xBB, 0xBF], rfl⟩
        rw [left]
        change 1 + (lineBreaks (more ++ rdata.flatMap Piece.bytes) : Int) < LJ_MAX_LINE
        lia
      · have noBom : (skipBom { input := .more (⟨first, others⟩ :: rdata) }).1 =
            { input := .more (⟨first, others⟩ :: rdata) } := by
          unfold skipBom
          split
          · next same =>
              cases same
              exact absurd rfl isBom
          · rfl
        have noBom' : (P.setinput (List.flatMap Piece.bytes (⟨first, others⟩ :: rdata))).bom =
            P.setinput (List.flatMap Piece.bytes (⟨first, others⟩ :: rdata)) := by
          apply if_neg
          intro same
          exact isBom (Option.some.inj same)
        rw [noBom, noBom']
        exact start

theorem behindHeader_suffix {text rest : GCstr} (behind : behindHeader text = some rest) :
    rest <:+ text := by
  induction text with
  | nil => cases behind
  | cons b text induction =>
      rw [behindHeader] at behind
      split at behind
      · rw [← Option.some.inj behind]
        split
        · exact (List.tail_suffix text).trans (List.suffix_cons b text)
        · exact List.suffix_cons b text
      · split at behind
        · split at behind
          · rw [← Option.some.inj behind]
            exact (List.tail_suffix text).trans (List.suffix_cons b text)
          · cases behind
        · exact (induction behind).trans (List.suffix_cons b text)

theorem header_agrees {fuel : Nat} {rest : GCstr} (same : Same ls p) {b : UInt8} (isChar : ls.c = some b)
    (notEol : isEolByte b = false) (behind : behindHeader ls.rest.tail = some rest)
    (enough : ls.rest.length < fuel) :
    ∃ ls' ls'' p', headerLoop fuel ls = .ok (true, ls') ∧ ls'.newline = .ok ls'' ∧
      p.shebangLoop fuel = .ok p' ∧ Same ls'' p'.inclinenumber ∧ ls''.rest = rest := by
  induction fuel generalizing ls p b with
  | zero => omega
  | succ fuel induction =>
      have notNewline : b ≠ ch '\n' := by
        rintro rfl
        cases notEol
      have shorter := length_tail_of_c isChar
      have step : p.shebangLoop (fuel + 1) = p.next_.shebangLoop fuel := by
        rw [P.shebangLoop, same.c, isChar]
        exact if_pos (by simpa using notNewline)
      rw [headerLoop, step]
      cases isNext : ls.next.c with
      | none =>
          rw [c_eq_head?, rest_next, List.head?_eq_none_iff] at isNext
          rw [isNext] at behind
          cases behind
      | some c =>
          have shape := rest_eq_cons isNext
          rw [rest_next] at shape
          rw [shape, behindHeader] at behind
          rw [if_neg (Option.some_ne_none c), iseol_eq isNext]
          have isCurrent : p.next_.current = some c := same.next.c.trans isNext
          obtain ⟨fuel, rfl⟩ : ∃ n, fuel = n + 1 := by
            rw [shape, List.length_cons] at shorter
            exact ⟨fuel - 1, by omega⟩
          by_cases isNewline : c = ch '\n'
          · have isEol : ls.next.iseol = true := by rw [iseol_eq isNext, isNewline]; rfl
            obtain ⟨ls'', past, after, left⟩ := newline_agrees same.next isEol
            rw [if_pos (by rw [isNewline]; rfl)]
            refine ⟨ls.next, ls'', p.next_, rfl, past, ?_, after, ?_⟩
            · rw [P.shebangLoop, isCurrent, isNewline]
              exact if_neg (by simp)
            · rw [if_pos isNewline, Option.some.injEq] at behind
              rw [left, rest_pastEol, pair_newline (isNext.trans (congrArg some isNewline)), ← behind,
                c_eq_head?, rest_next, rest_next]
              simp only [beq_iff_eq]
          rw [if_neg isNewline] at behind
          by_cases isReturn : c = ch '\r'
          · rw [if_pos isReturn] at behind
            rw [if_pos (by rw [isReturn]; rfl)]
            have isEol : ls.next.iseol = true := by rw [iseol_eq isNext, isReturn]; rfl
            split at behind
            · next pair =>
                obtain ⟨ls'', past, after, left⟩ := newline_agrees same.next isEol
                rw [← rest_next, ← rest_next, ← c_eq_head?, ← rest_next, ← c_eq_head?] at pair
                have isReturn' : p.next_.current = some (ch '\r') := by rw [isCurrent, isReturn]
                have isNewline' : p.next_.next_.current = some (ch '\n') :=
                  same.next.next.c.trans pair.1
                have noReturn : p.next_.next_.next_.current ≠ some (ch '\r') := by
                  rw [same.next.next.next.c]
                  exact pair.2
                obtain ⟨fuel, rfl⟩ : ∃ n, fuel = n + 1 := by
                  have longer := length_tail_of_c pair.1
                  rw [rest_next, rest_next] at longer
                  rw [shape, List.length_cons] at shorter
                  exact ⟨fuel - 1, by omega⟩
                refine ⟨ls.next, ls'', p.next_.next_, rfl, past, ?_, ?_, ?_⟩
                · rw [P.shebangLoop, isReturn', if_pos (by decide), P.shebangLoop, isNewline']
                  exact if_neg (by simp)
                · rwa [P.inclinenumber_return isReturn' isNewline' noReturn]
                · rw [left, rest_pastEol, pair_return (isNext.trans (congrArg some isReturn)),
                    if_pos (by rw [pair.1]; rfl)]
                  rw [rest_next]
                  exact Option.some.inj behind
            · cases behind
          · rw [if_neg isReturn] at behind
            have notEol : isEolByte c = false := by simp [isEolByte, isNewline, isReturn]
            rw [if_neg (by simp [notEol])]
            exact induction same.next isNext notEol (by rw [rest_next]; exact behind)
              (by rw [rest_next]; omega)

theorem bom_suffix (p : P) : p.bom.z <:+ p.z := by
  have tail (p : P) : p.next_.z <:+ p.z := List.tail_suffix _
  unfold P.bom
  split
  · dsimp only
    split
    · split
      · exact ((tail _).trans (tail _)).trans (tail _)
      · exact (tail _).trans (tail _)
    · exact tail _
  · exact List.suffix_refl _

theorem setup_agrees {rdata : List Piece} {fuel : Nat} (bom : plainBom rdata = true)
    (header : plainHeader (P.setinput (rdata.flatMap Piece.bytes)).bom.z = true)
    (few : 1 + lineBreaks (rdata.flatMap Piece.bytes) < LJ_MAX_LINE)
    (enough : (rdata.flatMap Piece.bytes).length < fuel) :
    ∃ ls p, ljLexSetup fuel rdata = .ok (false, ls) ∧
      (P.setinput (rdata.flatMap Piece.bytes)).shebang fuel = .ok p ∧ Same ls p ∧
      ls.rest.length < fuel := by
  have same := bom_agrees bom few
  have shorter := (bom_suffix (P.setinput (rdata.flatMap Piece.bytes))).length_le
  rw [← same.rest] at header shorter
  unfold ljLexSetup P.shebang
  dsimp only
  rw [same.c]
  generalize skipBom { input := .more rdata } = skipped at same header shorter ⊢
  obtain ⟨ls, isBom⟩ := skipped
  dsimp only at same header shorter ⊢
  rw [plainHeader, ← c_eq_head?] at header
  by_cases isHeader : ls.c = some (ch '#')
  · rw [if_pos isHeader, rest_eq_cons isHeader] at header
    rw [if_pos isHeader, if_pos isHeader]
    rw [behindHeader, if_neg (by decide), if_neg (by decide)] at header
    cases behind : behindHeader ls.rest.tail with
    | none => rw [behind] at header; cases header
    | some rest =>
        rw [behind] at header
        obtain ⟨ls', ls'', p', run, past, run', after, left⟩ :=
          header_agrees same isHeader rfl behind (shorter.trans_lt enough)
        have notDump : ls''.c ≠ some LUA_SIGNATURE := by
          rw [c_eq_head?, left]
          simpa using header
        refine ⟨ls'', p'.inclinenumber, ?_, ?_, after, ?_⟩
        · rw [run]
          change (ls'.newline >>= fun ls => if ls.c = some LUA_SIGNATURE then throw .bcbad
            else pure (false, ls)) = .ok (false, ls'')
          rw [past]
          exact if_neg notDump
        · rw [run']
          rfl
        · have isSuffix := (behindHeader_suffix behind).trans (List.tail_suffix _)
          rw [left]
          exact (isSuffix.length_le.trans shorter).trans_lt enough
  · rw [if_neg isHeader] at header
    rw [if_neg isHeader, if_neg isHeader]
    have notDump : ls.c ≠ some LUA_SIGNATURE := by simpa using header
    rw [if_neg notDump]
    exact ⟨ls, _, rfl, rfl, same, shorter.trans_lt enough⟩

/-- What `n` calls of `lj_lex_next` return on the pieces of a reader. Bytecode has no
tokens. -/
def readTokens [StrScan] (fuel n : Nat) (rdata : List Piece) : Except LexError (List Read) := do
  let (dump, ls) ← ljLexSetup fuel rdata
  if dump then return []
  tokens fuel n ls

/-- What `n` calls of `P:next` return on a text. -/
def P.readTokens [Tonumber] (fuel n : Nat) (s : GCstr) : Except ReaderError (List Read) := do
  let p ← (P.setinput s).shebang fuel
  P.tokens fuel n p

/-- Both return the same, or both report an error. -/
def SameOutcome {α : Type} (r : Except LexError α) (r' : Except ReaderError α) : Prop :=
  match r, r' with
  | .ok a, .ok b => a = b
  | .error e, .error e' => e ≠ .outOfFuel ∧ e' ≠ .outOfFuel
  | _, _ => False

/-- In the whole run `lj_lex_next` meets nothing the readers differ in: -/
structure PlainInput [StrScan] (rdata : List Piece) : Prop where
  /-- a BOM or header line as both expect it, -/
  bom : plainBom rdata = true
  header : plainHeader (P.setinput (rdata.flatMap Piece.bytes)).bom.z = true
  /-- no more lines than a line number may count, -/
  few : 1 + lineBreaks (rdata.flatMap Piece.bytes) < LJ_MAX_LINE
  /-- and before every call a token both know, which the input does not cut off. -/
  token : ∀ ls, Reached rdata ls → plainAt ls.rest = true
  ended : ∀ ls, Reached rdata ls → ¬ls.CutOff

theorem tokens_end [StrScan] {fuel : Nat} {rdata : List Piece} (input : PlainInput rdata)
    (reached : Reached rdata ls) (enough : ls.rest.length < fuel) (n : Nat) :
    Ends (tokens fuel n ls) fun _ => True := by
  induction n generalizing ls with
  | zero => trivial
  | succ n induction =>
      have notCut : ¬CutOff { ls with lastline := ls.linenumber, sb := [] } := input.ended ls reached
      have call : Ends (ljLexNext fuel ls) ls.Progress :=
        (nextLoop_ends notCut enough enough).bind fun r progress => progress
      rw [tokens]
      cases run : ljLexNext fuel ls with
      | error e =>
          rw [run] at call
          exact call
      | ok r =>
          rw [run] at call
          exact (induction (.next reached run) (call.1.length.trans_lt enough)).bind
            fun rest _ => trivial

end Lexer

end TvmJit
