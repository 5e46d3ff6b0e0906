import TvmJit.Lua.Brackets

/-! String literals of Lua from their text to the TP literal that the translator writes. -/

namespace TvmJit

/-- A string literal of Lua and the bytes that the manual gives it. -/
inductive LuaLiteral : GCstr → GCstr → Prop
  | short {del : UInt8} {s v : GCstr} (isQuote : L.IsQuote del) (body : ShortBody manualEscape del s v) :
      LuaLiteral (del :: (s ++ [del])) v
  | long (level : Nat) {contents : GCstr} (closed : ClosedAtEnd level contents) :
      LuaLiteral (openBracket level ++ (contents ++ closeBracket level))
        (unifyBreaks (dropBreak contents))

/-- A text of TP that is, wherever it stands, one string token with these bytes. -/
def DenotesString [StrScan] (t v : GCstr) : Prop :=
  ∀ (ls : Lexer) (more : GCstr) (fuel : Nat), ls.rest = t ++ more → ls.rest.length < fuel →
    ls.linenumber + t.length < LJ_MAX_LINE →
      ∃ ls', ls.ljLexNext fuel = .ok (.string v, ls') ∧ ls'.rest = more

/-- The literal gives the bytes of the manual, and so does what the translator writes for it. -/
def Survives [StrScan] [Tonumber] (text v : GCstr) : Prop :=
  ∀ (l : L) (tail : GCstr), l.z = text ++ tail →
    ∃ seminfo l', l.llex = .ok (.string seminfo, l') ∧ l'.z = tail ∧ seminfo = v ∧
      ∀ t, tvmQuote seminfo = .ok t → DenotesString t v

theorem tvmQuote_denotes [StrScan] {s t : GCstr} (quoted : tvmQuote s = .ok t) : DenotesString t s := by
  intro ls more fuel bytes enough within
  obtain ⟨rfl, -⟩ := pushresult_eq_ok quoted
  have longer := Lexer.quoted_length s.length s
  have length : (ch '"' :: s.flatMap (quoteByte s.length) ++ [ch '"']).length =
      (s.flatMap (quoteByte s.length)).length + 2 := by
    simp
  have enough' : s.length < fuel := by
    rw [bytes, List.length_append, length] at enough
    omega
  have within' : ls.linenumber + s.length < LJ_MAX_LINE := by
    rw [length] at within
    lia
  have opened : ls.rest = ch '"' :: s.flatMap (quoteByte s.length) ++ ch '"' :: more := by
    rw [bytes, List.append_assoc]
    rfl
  exact Lexer.ljLexNext_quoted s more opened enough' within'

theorem survives_of_lexed [StrScan] [Tonumber] {text v w : GCstr}
    (lexed : ∀ (l : L) (tail : GCstr), l.z = text ++ tail →
      ∃ l', l.llex = .ok (.string w, l') ∧ l'.z = tail) : Survives text v ↔ w = v := by
  constructor
  · intro survives
    obtain ⟨l', run, -⟩ := lexed { z := text } [] (List.append_nil text).symm
    obtain ⟨seminfo, l₁, run₁, -, same, -⟩ := survives { z := text } [] (List.append_nil text).symm
    rw [run₁] at run
    cases run
    exact same
  · rintro rfl l tail bytes
    obtain ⟨l', run, behind⟩ := lexed l tail bytes
    exact ⟨w, l', run, behind, rfl, fun t quoted => tvmQuote_denotes quoted⟩

/-- A string literal survives unless it is a short one with the escape `\b`. -/
theorem string_survives_iff [StrScan] [Tonumber] {text v : GCstr} (literal : LuaLiteral text v) :
    Survives text v ↔ text.head? = some (ch '[') ∨ writesBackspace text.tail = false := by
  cases literal with
  | @short del s v isQuote body =>
      obtain ⟨w, lexed⟩ := lexedAs body
      have notBracket : (del :: (s ++ [del])).head? ≠ some (ch '[') := by
        intro same
        rcases isQuote with rfl | rfl <;> exact absurd (Option.some.inj same) (by decide)
      have run : Survives (del :: (s ++ [del])) v ↔ w = v := by
        apply survives_of_lexed
        intro l tail bytes
        rw [List.cons_append, List.append_assoc] at bytes
        obtain ⟨l', run, behind, -⟩ := L.llexLoop_short (l := l.resetbuffer) isQuote lexed.body rfl bytes
          (Nat.lt_succ_self _)
        exact ⟨l', run, behind⟩
      rw [run, lexed.same, List.tail_cons, lexed.delimited]
      exact (or_iff_right notBracket).symm
  | @long level contents closed =>
      have run : Survives (openBracket level ++ (contents ++ closeBracket level))
          (unifyBreaks (dropBreak contents)) ↔ unifyBreaks (dropBreak contents) =
            unifyBreaks (dropBreak contents) := by
        apply survives_of_lexed
        intro l tail bytes
        rw [List.append_assoc, List.append_assoc] at bytes
        obtain ⟨l', run, behind, -⟩ := L.llexLoop_long (l := l.resetbuffer) closed rfl bytes
          (Nat.lt_succ_self _)
        exact ⟨l', run, behind⟩
      exact ⟨fun _ => .inl rfl, fun _ => run.mpr rfl⟩

/-- `'\u{20AC}'` is the three bytes of the euro sign. -/
theorem string_survives_euro :
    @Survives ⟨fun _ => .error⟩ ⟨fun _ => none⟩ (.ofString "'\\u\x7b20AC\x7d'") [0xE2, 0x82, 0xAC] := by
  have digits : ∀ d ∈ ([ch '2', ch '0', ch 'A', ch 'C'] : GCstr), find xdigit (some d) = true := by
    rw [xdigit_bytes]
    decide +kernel
  have codePoint : hexadecimalValue [ch '2', ch '0', ch 'A', ch 'C'] ≤ 0x10FFFF := by decide
  have literal := LuaLiteral.short (.inr rfl) (.unicode (List.cons_ne_nil _ _) digits codePoint .nil)
  have text : GCstr.ofString "'\\u\x7b20AC\x7d'" = [ch '\'', ch '\\', ch 'u', ch '\x7b', ch '2', ch '0', ch 'A',
      ch 'C', ch '\x7d', ch '\''] := by
    decide +kernel
  have bytes : generalUtf8 (hexadecimalValue [ch '2', ch '0', ch 'A', ch 'C']) = [0xE2, 0x82, 0xAC] := by
    decide
  rw [text]
  rw [bytes] at literal
  exact (@string_survives_iff ⟨fun _ => .error⟩ ⟨fun _ => none⟩ _ _ literal).mpr (.inr (by decide))

/-- The lexer has the letter for the backspace of `"\b"`. -/
theorem string_with_backspace :
    ¬∀ (_ : StrScan) (_ : Tonumber) (text v : GCstr), LuaLiteral text v → Survives text v := by
  intro claim
  have literal : LuaLiteral [ch '"', ch '\\', ch 'b', ch '"'] [8] :=
    .short (.inl rfl) (.letter (by decide) .nil)
  have survives := claim ⟨fun _ => .error⟩ ⟨fun _ => none⟩ _ _ literal
  obtain ⟨seminfo, l', run, -, same, -⟩ := survives { z := [ch '"', ch '\\', ch 'b', ch '"'] } [] rfl
  have read : (@L.llex ⟨fun _ => none⟩ { z := [ch '"', ch '\\', ch 'b', ch '"'] }).map Prod.fst =
      .ok (.string [ch 'b']) := by
    decide +kernel
  rw [run] at read
  cases read
  exact absurd same (by decide)

end TvmJit
