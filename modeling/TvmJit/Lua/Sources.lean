import TvmJit.Lua.Tokens
import TvmJit.Lua.Comments

/-! Sources of Lua as their tokens with blanks and comments between them, and the calls of
`L:next` on them. -/

namespace TvmJit

open Lexer (lineBreaks)

/-- What is left of a source behind the part that was read, with its tokens and the lines where
they end. What may be inserted between two tokens, or behind the last one, is a parameter. -/
inductive Source [Tonumber] (insertions : Bool → GCstr → Prop) :
    GCstr → GCstr → List (Lexeme × Int) → Prop
  | eof {before gap : GCstr} (inserted : gap = [] ∨ insertions true gap) :
      Source insertions before gap [(.eof, 1 + lineBreaks (before ++ gap))]
  | token {before gap text rest : GCstr} {token : Lexeme} {reads : List (Lexeme × Int)}
      (inserted : gap = [] ∨ insertions false gap) (isToken : TokenAt text token rest)
      (more : Source insertions (before ++ gap ++ text) rest reads) :
      Source insertions before (gap ++ (text ++ rest))
        ((token, 1 + lineBreaks (before ++ gap) + lineBreaks text) :: reads)

namespace L

variable {l : L}

theorem lexedGap_or {insertions : Bool → GCstr → Prop} {atEnd : Bool} {gap : GCstr}
    (lexed : ∀ atEnd gap, insertions atEnd gap → LexedGap atEnd gap)
    (inserted : gap = [] ∨ insertions atEnd gap) : LexedGap atEnd gap := by
  rcases inserted with rfl | inserted
  · exact .nil
  · exact lexed atEnd gap inserted

variable [Tonumber]

/-- Calls of `L:next`, with `linenumber` behind each. -/
def nexts : Nat → L → Except LuaLexError (List (Lexeme × Int))
  | 0, _ => .ok []
  | count + 1, l => do
      let (token, l) ← l.llex
      let reads ← nexts count l
      return ((token, l.linenumber) :: reads)

/-- A gap and the token behind it. -/
theorem llex_token {gap text rest : GCstr} {token : Lexeme} (lexed : LexedGap false gap)
    (isToken : TokenAt text token rest) (bytes : l.z = gap ++ (text ++ rest)) :
    ∃ l', l.llex = .ok (token, l') ∧ l'.z = rest ∧
      l'.linenumber = l.linenumber + lineBreaks gap + lineBreaks text := by
  have skips : SkipsGap (l.z.length + 1) (text ++ rest) gap :=
    llexLoop_gap lexed (isToken.bordered.starts rest) (nomatch ·)
  obtain ⟨fuel, more, skipped⟩ := skips l.resetbuffer (l.z.length + 1) rfl bytes (Nat.lt_succ_self _)
    (Nat.lt_succ_self _)
  obtain ⟨fuel, rfl⟩ := Nat.exists_eq_succ_of_ne_zero (Nat.ne_of_gt (Nat.zero_lt_of_lt more))
  let behind : L := { z := text ++ rest, linenumber := l.linenumber + lineBreaks gap }
  have enough : behind.z.length < l.z.length + 1 := by
    have total : l.z.length = gap.length + (text ++ rest).length :=
      (congrArg List.length bytes).trans List.length_append
    change (text ++ rest).length < _
    omega
  have reads : ∃ l', ReadsToken (l.z.length + 1) fuel behind text token rest l' :=
    reads_token isToken rfl rfl enough
  obtain ⟨l', read⟩ := reads
  exact ⟨l', skipped.trans read.run, read.z, read.linenumber⟩

theorem llex_eof {gap : GCstr} (lexed : LexedGap true gap) (bytes : l.z = gap) :
    ∃ l', l.llex = .ok (.eof, l') ∧ l'.linenumber = l.linenumber + lineBreaks gap := by
  have skips : SkipsGap (l.z.length + 1) [] gap := llexLoop_gap lexed rfl fun _ => rfl
  obtain ⟨fuel, more, skipped⟩ := skips l.resetbuffer (l.z.length + 1) rfl
    (bytes.trans (List.append_nil gap).symm) (Nat.lt_succ_self _) (Nat.lt_succ_self _)
  obtain ⟨fuel, rfl⟩ := Nat.exists_eq_succ_of_ne_zero (Nat.ne_of_gt (Nat.zero_lt_of_lt more))
  exact ⟨_, skipped, rfl⟩

/-- The tokens of a source are read in its lines, whatever the lexer skips between them. -/
theorem nexts_source {insertions : Bool → GCstr → Prop} {before z : GCstr} {reads : List (Lexeme × Int)}
    (lexed : ∀ atEnd gap, insertions atEnd gap → LexedGap atEnd gap)
    (source : Source insertions before z reads) (bytes : l.z = z)
    (line : l.linenumber = 1 + lineBreaks before)
    (border : ∀ more, lineBreaks (before ++ more) = lineBreaks before + lineBreaks more) :
    nexts reads.length l = .ok reads := by
  induction source generalizing l with
  | @eof before gap inserted =>
      obtain ⟨l', run, isLine⟩ := llex_eof (lexedGap_or lexed inserted) bytes
      have here : l'.linenumber = 1 + lineBreaks (before ++ gap) := by
        rw [isLine, line, border]
        push_cast
        ring
      change (do let (token, l) ← l.llex; let reads ← nexts 0 l; return ((token, l.linenumber) :: reads)) = _
      rw [run, ← here]
      rfl
  | @token before gap text rest token reads inserted isToken more induction =>
      obtain ⟨l', run, z, isLine⟩ := llex_token (lexedGap_or lexed inserted) isToken bytes
      have bordered := isToken.bordered
      have here : l'.linenumber = 1 + lineBreaks (before ++ gap) + lineBreaks text := by
        rw [isLine, line, border]
        push_cast
        ring
      have through (left : GCstr) : lineBreaks (before ++ gap ++ text ++ left) =
          lineBreaks (before ++ gap) + lineBreaks text + lineBreaks left := by
        rw [List.append_assoc (before ++ gap), lineBreaks_add (before ++ gap) (bordered.starts left),
          bordered.ends, Nat.add_assoc]
      have upToHere : lineBreaks (before ++ gap ++ text) = lineBreaks (before ++ gap) + lineBreaks text := by
        have whole := through []
        rwa [List.append_nil] at whole
      have reading : nexts reads.length l' = .ok reads := by
        apply induction z
        · rw [here, upToHere]
          push_cast
          ring
        · intro left
          rw [through, upToHere]
      change (do let (token, l) ← l.llex; let reads ← nexts _ l; return ((token, l.linenumber) :: reads)) = _
      rw [run]
      change (do let reads ← nexts reads.length l'; return ((token, l'.linenumber) :: reads)) = _
      rw [reading, here]
      rfl

end L

/-! ## When insertions are invisible -/

section Invisible

variable [Tonumber] {insertions : Bool → GCstr → Prop}

theorem nexts_first {l : L} {count : Nat} {read : Lexeme × Int} {reads : List (Lexeme × Int)}
    (run : L.nexts (count + 1) l = .ok (read :: reads)) : ∃ l', l.llex = .ok (read.1, l') := by
  change (do
    let (token, l) ← l.llex
    let reads ← L.nexts count l
    return ((token, l.linenumber) :: reads)) = _ at run
  cases first : l.llex with
  | error e =>
      rw [first] at run
      cases run
  | ok after =>
      rw [first] at run
      refine ⟨after.2, ?_⟩
      cases rest : L.nexts count after.2 with
      | error e =>
          change (L.nexts count after.2 >>= _) = _ at run
          rw [rest] at run
          cases run
      | ok more =>
          change (L.nexts count after.2 >>= _) = _ at run
          rw [rest] at run
          have same := (List.cons.inj (Except.ok.inj run)).1
          rw [← same]

/-- A gap in front of a probe, in a source that is read as it is written. -/
theorem lexedGap_of_nexts {gap probe : GCstr} {count : Nat} {line : Int} {reads : List (Lexeme × Int)}
    (isProbe : Probe gap probe)
    (run : L.nexts (count + 1) { z := gap ++ probe } = .ok ((probed probe, line) :: reads)) :
    LexedGap probe.isEmpty gap := by
  obtain ⟨l', first⟩ := nexts_first run
  have finds : L.FindsGap ((gap ++ probe).length + 1) ((gap ++ probe).length + 1) probe gap :=
    L.lexedGap_of_llexLoop isProbe
  exact finds { z := gap ++ probe } l' rfl rfl (Nat.lt_succ_self _) first

theorem lexedGap_atEnd {gap : GCstr} (inserted : insertions true gap)
    (reads : ∀ z reads, Source insertions [] z reads → L.nexts reads.length { z := z } = .ok reads) :
    LexedGap true gap := by
  have isProbe : Probe gap [] := ⟨List.forall_mem_nil _, fun some => absurd rfl some,
    fun some => absurd rfl some⟩
  apply lexedGap_of_nexts isProbe
  have read := reads gap _ (.eof (.inr inserted))
  rwa [← List.append_nil gap] at read

theorem lexedGap_between {gap : GCstr} (isGap : Gap false gap) (inserted : insertions false gap)
    (reads : ∀ z reads, Source insertions [] z reads → L.nexts reads.length { z := z } = .ok reads) :
    LexedGap false gap := by
  let probe : GCstr := ch 'x' :: List.replicate gap.length (ch 'x')
  have each : ∀ b ∈ probe, b = ch 'x' :=
    List.forall_mem_cons.mpr ⟨rfl, fun b member => List.eq_of_mem_replicate member⟩
  have longer : gap.length < probe.length := by
    rw [List.length_cons, List.length_replicate]
    exact Nat.lt_succ_self _
  have isProbe : Probe gap probe := ⟨each, fun _ => longer, fun _ => isGap.noOpening⟩
  have notToken : probe ∉ L.tokens := by
    intro isToken
    have starts : ∀ token ∈ L.tokens, token.head? ≠ some (ch 'x') := by decide +kernel
    exact starts probe isToken rfl
  have isName : TokenAt probe (.name probe) [] := by
    have starts : find L.alpha (some (ch 'x')) = true := by decide +kernel
    have more (c : UInt8) (member : c ∈ List.replicate gap.length (ch 'x')) :
        find L.alnum (some c) = true := isProbe.alnum c (List.mem_cons_of_mem (ch 'x') member)
    have isName : TokenAt probe (if probe ∈ L.tokens then .plain probe else .name probe) [] :=
      .name starts more rfl
    rwa [if_neg notToken] at isName
  have source : Source insertions [] (gap ++ (probe ++ [])) _ :=
    .token (.inr inserted) isName (.eof (.inl rfl))
  have read := reads _ _ source
  have whole : gap ++ (probe ++ []) = gap ++ probe := congrArg (gap ++ ·) (List.append_nil probe)
  rw [whole] at read
  exact lexedGap_of_nexts isProbe read

/-- Blanks and comments do not change what `L:next` reads if and only if the lexer takes each of
them for blanks and comments itself. -/
theorem insertions_invisible_iff (blank : ∀ atEnd gap, insertions atEnd gap → Gap atEnd gap) :
    (∀ z reads, Source insertions [] z reads → L.nexts reads.length { z := z } = .ok reads) ↔
      ∀ atEnd gap, insertions atEnd gap → LexedGap atEnd gap := by
  constructor
  · intro reads atEnd gap inserted
    cases atEnd with
    | true => exact lexedGap_atEnd inserted reads
    | false => exact lexedGap_between (blank false gap inserted) inserted reads
  · intro lexed z reads source
    exact L.nexts_source lexed source rfl rfl fun more => (Nat.zero_add _).symm

end Invisible

/-- A long comment that a line break is in, behind a name. -/
theorem long_comment_invisible :
    @L.nexts ⟨fun _ => none⟩ 2 { z := .ofString "x--[[\n]]" } =
      .ok [(.name [ch 'x'], 1), (.eof, 2)] := by
  have closed : ClosedAtEnd 0 [10] := by
    rintro before ⟨more, split⟩
    cases before with
    | nil => exact absurd (List.cons.inj split).1 (by decide)
    | cons b before =>
        obtain ⟨rfl, rest⟩ := List.cons.inj split
        have lengths : (before ++ closeBracket 0 ++ more).length = 2 := congrArg List.length rest
        rw [List.length_append, List.length_append] at lengths
        have two : (closeBracket 0).length = 2 := rfl
        rw [List.eq_nil_of_length_eq_zero (by omega : before.length = 0)]
  have comment (lexed : Bool) : Blank lexed true [45, 45, 91, 91, 10, 93, 93] := .long closed .nil
  let insertions (atEnd : Bool) (gap : GCstr) : Prop := atEnd = true ∧ gap = [45, 45, 91, 91, 10, 93, 93]
  have each (lexed atEnd : Bool) (gap : GCstr) (inserted : insertions atEnd gap) : Blank lexed atEnd gap := by
    obtain ⟨rfl, rfl⟩ := inserted
    exact comment lexed
  have isName : @TokenAt ⟨fun _ => none⟩ [120]
      (if [120] ∈ L.tokens then .plain [120] else .name [120]) [45, 45, 91, 91, 10, 93, 93] :=
    @TokenAt.name ⟨fun _ => none⟩ _ _ _ (by decide +kernel) (List.forall_mem_nil _) (by decide +kernel)
  have atEnd := @Source.eof ⟨fun _ => none⟩ insertions [120] _ (.inr ⟨rfl, rfl⟩)
  have source := @Source.token ⟨fun _ => none⟩ insertions [] [] _ _ _ _ (.inl rfl) isName atEnd
  have read := (@insertions_invisible_iff ⟨fun _ => none⟩ insertions (each false)).mpr (each true) _ _ source
  have text : GCstr.ofString "x--[[\n]]" = [120, 45, 45, 91, 91, 10, 93, 93] := by decide +kernel
  have plain : [120] ∉ L.tokens := by decide +kernel
  rw [if_neg plain] at read
  rw [text]
  exact read

/-- Of the comment `--[ x` the lexer reads the name. -/
theorem bracket_comment_is_name :
    ¬∀ (_ : Tonumber) (z : GCstr) (reads : List (Lexeme × Int)),
      Source Gap [] z reads → L.nexts reads.length { z := z } = .ok reads := by
  intro claim
  have notLong : ¬opensLong [91, 32, 120] := by
    rintro ⟨level, more, split⟩
    cases level with
    | zero => exact absurd (List.cons.inj (List.cons.inj split).2).1 (by decide)
    | succ level => exact absurd (List.cons.inj (List.cons.inj split).2).1 (by decide)
  have noBreak : ∀ b ∈ ([91, 32, 120] : GCstr), find newline (some b) = false := by
    rw [newline_bytes]
    decide +kernel
  have isBreak : find newline (some 10) = true := by decide +kernel
  have gap : Gap true [45, 45, 91, 32, 120, 10] :=
    Blank.short noBreak notLong (.inl isBreak) (.newline isBreak .nil)
  have source := @Source.eof ⟨fun _ => none⟩ Gap [] _ (.inr gap)
  have read := claim ⟨fun _ => none⟩ _ _ source
  have isName : (@L.nexts ⟨fun _ => none⟩ 1 { z := [45, 45, 91, 32, 120, 10] }).map (List.map Prod.fst) =
      .ok [.name [120]] := by
    decide +kernel
  cases isName.symm.trans (congrArg (Except.map (List.map Prod.fst)) read)

end TvmJit
