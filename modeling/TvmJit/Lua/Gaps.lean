import TvmJit.Lua.Brackets

/-! Blank space and comments of Lua between two tokens, as the manual has them and as
`L:_llex` takes them. -/

namespace TvmJit

open Lexer (lineBreaks)

/-- The text of a comment makes it a long one. -/
def opensLong (text : GCstr) : Prop := ∃ level, openBracket level <+: text

/-- What may stand between two tokens, or behind the last one. In the lexer's own reading a
comment that starts with a square bracket and is no long one ends behind its equals signs. -/
inductive Blank (lexed atEnd : Bool) : GCstr → Prop
  | nil : Blank lexed atEnd []
  | space {b : UInt8} {rest : GCstr} (isSpace : b = ch ' ' ∨ b = 12 ∨ b = ch '\t' ∨ b = 11)
      (more : Blank lexed atEnd rest) : Blank lexed atEnd (b :: rest)
  | newline {b : UInt8} {rest : GCstr} (isBreak : find newline (some b) = true)
      (more : Blank lexed atEnd (pastBreak (b :: rest))) : Blank lexed atEnd (b :: rest)
  | short {text rest : GCstr} (noBreak : ∀ b ∈ text, find TvmJit.newline (some b) = false)
      (isShort : if lexed then text.head? ≠ some (ch '[') else ¬opensLong text)
      (ended : find TvmJit.newline rest.head? = true ∨ atEnd = true ∧ rest = [])
      (more : Blank lexed atEnd rest) : Blank lexed atEnd (ch '-' :: ch '-' :: (text ++ rest))
  | long {level : Nat} {contents rest : GCstr} (closed : ClosedAtEnd level contents)
      (more : Blank lexed atEnd rest) :
      Blank lexed atEnd
        (ch '-' :: ch '-' :: (openBracket level ++ (contents ++ (closeBracket level ++ rest))))
  | bracket {count : Nat} {rest : GCstr} (isLexed : lexed = true)
      (isShort : rest.head? ≠ some (ch '=') ∧ rest.head? ≠ some (ch '['))
      (goesOn : atEnd = true ∨ rest ≠ []) (more : Blank lexed atEnd rest) :
      Blank lexed atEnd (ch '-' :: ch '-' :: ch '[' :: (equalSigns count ++ rest))

/-- The blanks and comments between two tokens, or behind the last one. -/
def Gap (atEnd : Bool) (gap : GCstr) : Prop := Blank false atEnd gap

/-- The lexer finds nothing but blanks and comments. -/
def LexedGap (atEnd : Bool) (gap : GCstr) : Prop := Blank true atEnd gap

namespace L

variable {l : L} {steps fuel : Nat} {tail : GCstr}

/-! ## Comments -/

theorem shortComment_text {text : GCstr} (noBreak : ∀ b ∈ text, find newline (some b) = false)
    (ended : find newline tail.head? = true ∨ tail = []) (enough : text.length < fuel)
    (bytes : l.z = text ++ tail) : shortComment fuel l = .ok { l with z := tail } := by
  induction text generalizing l fuel with
  | nil =>
      obtain ⟨fuel, rfl⟩ := Nat.exists_eq_succ_of_ne_zero (Nat.ne_of_gt enough)
      have isHead : l.current = tail.head? := by rw [current, bytes]; rfl
      have stops : ¬(!find newline l.current && l.current != none) = true := by
        rw [isHead]
        rcases ended with isBreak | rfl
        · simp [isBreak]
        · simp
      have unchanged : ({ l with z := tail } : L) = l :=
        congrArg (fun z : GCstr => ({ l with z := z } : L)) bytes.symm
      rw [shortComment, if_neg stops, unchanged]
  | cons b text induction =>
      obtain ⟨fuel, rfl⟩ := Nat.exists_eq_succ_of_ne_zero (Nat.ne_of_gt (Nat.zero_lt_of_lt enough))
      have goesOn : (!find newline l.current && l.current != none) = true := by
        rw [current_of_z bytes, noBreak b List.mem_cons_self]
        rfl
      have skipped : l.next_ = { l with z := text ++ tail } := by
        rw [next_, bytes]
        rfl
      rw [shortComment, if_pos goesOn, skipped]
      exact induction (fun b' member => noBreak b' (List.mem_cons_of_mem b member))
        (by simpa using enough) rfl

theorem comment_short {text : GCstr} (noBreak : ∀ b ∈ text, find newline (some b) = false)
    (isShort : text.head? ≠ some (ch '[')) (ended : find newline tail.head? = true ∨ tail = [])
    (enough : text.length < steps) (bytes : l.z = text ++ tail) :
    l.comment steps = .ok { l with z := tail } := by
  have notBracket : l.current ≠ some (ch '[') := by
    rw [current, bytes]
    cases text with
    | nil =>
        rcases ended with isBreak | rfl
        · intro same
          rw [List.nil_append] at same
          rw [same, newline_bytes] at isBreak
          exact absurd isBreak (by decide)
        · intro impossible
          cases impossible
    | cons b text => exact isShort
  rw [comment, if_neg notBracket]
  exact shortComment_text noBreak ended enough bytes

/-- Behind the opening bracket of a long comment its contents are read. -/
theorem comment_opens {level : Nat} {inside : GCstr} (enough : level < steps)
    (bytes : l.z = ch '[' :: (equalSigns level ++ ch '[' :: inside)) :
    l.comment steps = do
      let l ← readLongString steps false level { l with z := ch '[' :: inside, buff := [] }
      return l.resetbuffer := by
  have ended : (ch '[' :: inside).head? ≠ some (ch '=') :=
    fun same => absurd (Option.some.inj same) (by decide)
  have signs := skipSep_signs (.inl rfl) ended enough bytes
  rw [List.head?_cons, if_pos rfl] at signs
  let opened : L := { l with z := ch '[' :: inside, buff := [] }
  rw [comment, current_of_z bytes, if_pos rfl, signs]
  change (if (level : Int) ≥ 0 then (do
    let l ← readLongString steps false level opened
    return l.resetbuffer) else Except.ok opened) = _
  rw [if_pos (Int.natCast_nonneg level)]

/-- A long comment is skipped, and with it the line breaks in it. -/
theorem comment_long {level : Nat} {contents : GCstr} (closed : ClosedAtEnd level contents)
    (bytes : l.z = openBracket level ++ (contents ++ (closeBracket level ++ tail)))
    (enough : l.z.length < steps) :
    l.comment steps = .ok { z := tail, linenumber := l.linenumber + lineBreaks contents } := by
  let inside : GCstr := contents ++ (closeBracket level ++ tail)
  have start : l.z = ch '[' :: (equalSigns level ++ ch '[' :: inside) := by
    rw [bytes, openBracket, List.cons_append, List.append_assoc]
    rfl
  have length : l.z.length = level + inside.length + 2 := by
    rw [start, List.length_cons, List.length_append, equalSigns, List.length_replicate,
      List.length_cons]
    omega
  have enoughSigns : level < steps := by omega
  let opened : L := { l with z := ch '[' :: inside, buff := [] }
  have short : opened.z.length < steps := by
    change inside.length + 1 < steps
    omega
  have reads : ∃ l', readLongString steps false level opened = .ok l' ∧ ReadTo false opened l'
      (lineBreaks contents) (ch '[' :: (unifyBreaks (dropBreak contents) ++ closeBracket level)) tail :=
    readLongString_contents closed rfl short
  obtain ⟨l', run, read⟩ := reads
  rw [comment_opens enoughSigns start, run]
  change Except.ok ({ z := l'.z, linenumber := l'.linenumber } : L) = _
  rw [read.z, read.linenumber]

/-- Behind a square bracket that opens no long comment the lexer goes on with tokens. -/
theorem comment_bracket {count : Nat} (isShort : tail.head? ≠ some (ch '=') ∧ tail.head? ≠ some (ch '['))
    (enough : count < steps) (bytes : l.z = ch '[' :: (equalSigns count ++ tail)) :
    l.comment steps = .ok { l with z := tail, buff := [] } := by
  have signs := skipSep_signs (.inl rfl) isShort.1 enough bytes
  rw [if_neg isShort.2] at signs
  rw [comment, current_of_z bytes, if_pos rfl, signs]
  change (if (-count - 1 : Int) ≥ 0 then _ else Except.ok { l with z := tail, buff := [] }) = _
  rw [if_neg (by omega)]

/-! ## The loop of `L:_llex` in front of a token -/

theorem hyphen_plain : find newline (some (ch '-')) = false := by
  rw [newline_bytes]
  decide

theorem lineBreaks_hyphens (rest : GCstr) : lineBreaks (ch '-' :: ch '-' :: rest) = lineBreaks rest :=
  lineBreaks_append (List.forall_mem_cons.mpr
    ⟨hyphen_plain, List.forall_mem_singleton.mpr hyphen_plain⟩) rest

theorem openBracket_plain (level : Nat) : ∀ b ∈ openBracket level, find newline (some b) = false := by
  have bracket : find newline (some (ch '[')) = false := by
    rw [newline_bytes]
    decide
  exact List.forall_mem_cons.mpr ⟨bracket,
    List.forall_mem_append.mpr ⟨equalSigns_plain level, List.forall_mem_singleton.mpr bracket⟩⟩

theorem closeBracket_plain (level : Nat) : ∀ b ∈ closeBracket level, find newline (some b) = false := by
  have bracket : find newline (some (ch ']')) = false := by
    rw [newline_bytes]
    decide
  exact List.forall_mem_cons.mpr ⟨bracket,
    List.forall_mem_append.mpr ⟨equalSigns_plain level, List.forall_mem_singleton.mpr bracket⟩⟩

variable [Tonumber]

theorem llexLoop_space {b : UInt8} (isSpace : b = ch ' ' ∨ b = 12 ∨ b = ch '\t' ∨ b = 11)
    (bytes : l.z = b :: tail) :
    llexLoop steps (fuel + 1) l = llexLoop steps fuel { l with z := tail } := by
  have skipped : l.next_ = { l with z := tail } := by
    rw [next_, bytes]
    rfl
  rw [llexLoop, current_of_z bytes, ← skipped]
  rcases isSpace with rfl | rfl | rfl | rfl <;> rfl

theorem llexLoop_break {b : UInt8} (isBreak : find newline (some b) = true) (bytes : l.z = b :: tail) :
    llexLoop steps (fuel + 1) l =
      llexLoop steps fuel { l with z := pastBreak (b :: tail), linenumber := l.linenumber + 1 } := by
  have isEnd : b = ch '\n' ∨ b = ch '\r' := find_forall newline_bytes isBreak (by decide)
  rw [llexLoop, current_of_z bytes]
  dsimp only
  rw [if_pos isEnd, inclinenumber_eq isBreak bytes]
  rfl

theorem llexLoop_hyphens (bytes : l.z = ch '-' :: ch '-' :: tail) :
    llexLoop steps (fuel + 1) l = comment steps { l with z := tail } >>= llexLoop steps fuel := by
  have skipped : l.next_.next_ = { l with z := tail } := by
    rw [next_, next_, bytes]
    rfl
  have second : l.next_.current = some (ch '-') := by
    rw [current, next_, bytes]
    rfl
  rw [llexLoop, current_of_z bytes]
  change (if l.next_.current ≠ some (ch '-') then _ else _) = _
  rw [if_neg (not_not.mpr second), skipped]

theorem llexLoop_comment {l' : L} (bytes : l.z = ch '-' :: ch '-' :: tail)
    (read : comment steps { l with z := tail } = .ok l') :
    llexLoop steps (fuel + 1) l = llexLoop steps fuel l' := by
  rw [llexLoop_hyphens bytes, read]
  rfl

/-- In front of these bytes a gap is skipped, and its line breaks are counted. -/
def SkipsGap (steps : Nat) (tail gap : GCstr) : Prop :=
  ∀ (l : L) (fuel : Nat), l.buff = [] → l.z = gap ++ tail → l.z.length < fuel → l.z.length < steps →
    ∃ fuel', tail.length < fuel' ∧ llexLoop steps fuel l =
      llexLoop steps fuel' { z := tail, linenumber := l.linenumber + lineBreaks gap }

/-- One round skips the front of the gap. -/
theorem SkipsGap.round {gap rest : GCstr} {breaks : Nat} (skips : SkipsGap steps tail rest)
    (shorter : rest.length < gap.length) (count : lineBreaks gap = lineBreaks rest + breaks)
    (round : ∀ (l : L) (fuel : Nat), l.buff = [] → l.z = gap ++ tail → l.z.length < steps →
      llexLoop steps (fuel + 1) l =
        llexLoop steps fuel { z := rest ++ tail, linenumber := l.linenumber + breaks }) :
    SkipsGap steps tail gap := by
  intro l fuel fresh bytes enough enoughSteps
  obtain ⟨fuel, rfl⟩ := Nat.exists_eq_succ_of_ne_zero (Nat.ne_of_gt (Nat.zero_lt_of_lt enough))
  have length : (rest ++ tail).length < l.z.length := by
    rw [bytes, List.length_append, List.length_append]
    omega
  obtain ⟨fuel', more, run⟩ := skips { z := rest ++ tail, linenumber := l.linenumber + breaks } fuel rfl
    rfl (by change (rest ++ tail).length < _; omega) (by change (rest ++ tail).length < _; omega)
  refine ⟨fuel', more, (round l fuel fresh bytes enoughSteps).trans (run.trans ?_)⟩
  rw [count]
  congr 2
  push_cast
  ring

/-- Blanks and comments are skipped, and their line breaks are counted. -/
theorem llexLoop_gap {atEnd : Bool} {gap : GCstr} (lexed : LexedGap atEnd gap)
    (single : find newline tail.head? = false) (ends : atEnd = true → tail = []) :
    SkipsGap steps tail gap := by
  induction lexed with
  | nil =>
      intro l fuel fresh bytes enough enoughSteps
      have same : ({ z := tail, linenumber := l.linenumber + lineBreaks [] } : L) = l := by
        change ({ z := [] ++ tail, linenumber := l.linenumber + 0 } : L) = l
        rw [add_zero, ← bytes, ← fresh]
      refine ⟨fuel, ?_, by rw [same]⟩
      rwa [bytes] at enough
  | @space b rest isSpace more induction =>
      have plain : find newline (some b) = false := by
        rw [newline_bytes]
        rcases isSpace with rfl | rfl | rfl | rfl <;> decide
      have count : lineBreaks (b :: rest) = lineBreaks rest + 0 :=
        lineBreaks_append (List.forall_mem_singleton.mpr plain) rest
      apply induction.round (Nat.lt_succ_self _) count
      intro l fuel fresh bytes enough
      rw [llexLoop_space isSpace bytes, fresh]
      exact congrArg (fun line => llexLoop steps fuel { z := rest ++ tail, linenumber := line })
        (add_zero _).symm
  | @newline b rest isBreak more induction =>
      have fewer : (pastBreak (b :: rest)).length < (b :: rest).length :=
        Nat.lt_succ_of_le (pastBreak_suffix b rest).length_le
      apply induction.round fewer (lineBreaks_break isBreak rest)
      intro l fuel fresh bytes enough
      rw [llexLoop_break isBreak bytes, fresh, List.append_eq, pastBreak_append b rest single]
      rfl
  | @short text rest noBreak isShort ended more induction =>
      have count : lineBreaks (ch '-' :: ch '-' :: (text ++ rest)) = lineBreaks rest + 0 := by
        rw [lineBreaks_hyphens, lineBreaks_append noBreak]
        rfl
      apply induction.round (by simp only [List.length_cons, List.length_append]; omega) count
      intro l fuel fresh bytes enough
      have behind : l.z = ch '-' :: ch '-' :: (text ++ (rest ++ tail)) := by
        rw [bytes, List.cons_append, List.cons_append, List.append_assoc]
      have endsLine : find newline (rest ++ tail).head? = true ∨ rest ++ tail = [] := by
        cases ended with
        | inl isBreak =>
            left
            cases rest with
            | nil => cases isBreak
            | cons b rest => exact isBreak
        | inr atLast =>
            right
            rw [atLast.2, ends atLast.1]
            rfl
      have short : text.length < steps := by
        rw [behind] at enough
        simp only [List.length_cons, List.length_append] at enough
        omega
      have read : comment steps { l with z := text ++ (rest ++ tail) } = .ok { l with z := rest ++ tail } :=
        comment_short noBreak isShort endsLine short rfl
      rw [llexLoop_comment behind read, fresh]
      exact congrArg (fun line => llexLoop steps fuel { z := rest ++ tail, linenumber := line })
        (add_zero _).symm
  | @long level contents rest closed more induction =>
      have noBracketBreak : find newline (closeBracket level ++ rest).head? = false := by
        exact closeBracket_plain level (ch ']') List.mem_cons_self
      have count : lineBreaks (ch '-' :: ch '-' ::
          (openBracket level ++ (contents ++ (closeBracket level ++ rest)))) =
          lineBreaks rest + lineBreaks contents := by
        rw [lineBreaks_hyphens, lineBreaks_append (openBracket_plain level),
          lineBreaks_add contents noBracketBreak, lineBreaks_append (closeBracket_plain level),
          Nat.add_comm]
      apply induction.round (by simp only [List.length_cons, List.length_append]; omega) count
      intro l fuel fresh bytes enough
      have behind : l.z = ch '-' :: ch '-' ::
          (openBracket level ++ (contents ++ (closeBracket level ++ (rest ++ tail)))) := by
        rw [bytes]
        simp only [List.cons_append, List.append_assoc]
      have short : (openBracket level ++ (contents ++ (closeBracket level ++ (rest ++ tail)))).length <
          steps := by
        rw [behind, List.length_cons, List.length_cons] at enough
        omega
      have read := comment_long (l := { l with z := _ }) closed rfl short
      rw [llexLoop_comment behind read]
  | @bracket count rest isLexed isShort goesOn more induction =>
      have plain : ∀ b ∈ ch '[' :: equalSigns count, find newline (some b) = false := by
        refine List.forall_mem_cons.mpr ⟨?_, equalSigns_plain count⟩
        rw [newline_bytes]
        decide
      have breaks : lineBreaks (ch '-' :: ch '-' :: ch '[' :: (equalSigns count ++ rest)) =
          lineBreaks rest + 0 := by
        rw [lineBreaks_hyphens]
        exact lineBreaks_append plain rest
      apply induction.round (by simp only [List.length_cons, List.length_append]; omega) breaks
      intro l fuel fresh bytes enough
      have behind : l.z = ch '-' :: ch '-' :: ch '[' :: (equalSigns count ++ (rest ++ tail)) := by
        rw [bytes]
        simp only [List.cons_append, List.append_assoc]
      have other : (rest ++ tail).head? ≠ some (ch '=') ∧ (rest ++ tail).head? ≠ some (ch '[') := by
        cases rest with
        | nil =>
            have atLast : atEnd = true := goesOn.resolve_right (not_not.mpr rfl)
            rw [ends atLast]
            exact ⟨(nomatch ·), (nomatch ·)⟩
        | cons b rest => exact isShort
      have short : count < steps := by
        rw [behind] at enough
        simp only [equalSigns, List.length_cons, List.length_append, List.length_replicate] at enough
        omega
      have read := comment_bracket (l := { l with z := _ }) other short rfl
      rw [llexLoop_comment behind read]
      exact congrArg (fun line => llexLoop steps fuel { z := rest ++ tail, linenumber := line })
        (add_zero _).symm

end L

end TvmJit
