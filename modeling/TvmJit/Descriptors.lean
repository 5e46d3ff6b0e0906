import TvmJit.Parse.Statement

/-! Which descriptors `expr` leaves written. A form that produces no value
returns without touching the descriptor it was given; whether a form is one of
these can be read off the tokens it starts with. -/

namespace TvmJit

open Foundation

/-! ## Forms that write their descriptor -/

/-- The forms that produce no value. -/
def SP.isEffect : SP → Bool
  | .break_ | .cond | .define | .for_ | .goto | .if_ | .label | .let_ | .letrec | .loop
  | .massign | .mdefine | .mlet | .repeat_ | .return_ | .while_ => true
  | _ => false

/-- Whether `expr`, started at these tokens, writes the descriptor when it
returns. A `!do` writes it unless it is empty; a `!line` leaves it to the
expression that follows. -/
def valueAhead : List Token → Bool
  | [.lparen] => true
  | .lparen :: head :: rest =>
      match headOf head with
      | none => true  -- A table constructor.
      | some .do_ => rest.head? == some .lparen
      | some .line =>
          match rest with
          | .rparen :: more => valueAhead more
          | .string _ :: .rparen :: more => valueAhead more
          | .number _ :: .rparen :: more => valueAhead more
          | .cdata _ :: .rparen :: more => valueAhead more
          | .string _ :: .number _ :: .rparen :: more => valueAhead more
          | .string _ :: .cdata _ :: .rparen :: more => valueAhead more
          | _ => false
      | some sp => !sp.isEffect
  | .number _ :: _ | .cdata _ :: _ | .string _ :: _ | .name _ :: _ => true
  | _ => false

/-- `valueAhead` for `parse_stmt`, which starts after the opening parenthesis. -/
def formAhead (ahead : List Token) : Bool := valueAhead (.lparen :: ahead)

/-- The tokens ahead after one of them has been consumed. -/
def advance : List Token → List Token
  | _ :: tok :: rest => tok :: rest
  | _ => [.eof]

theorem formAhead_advance (rest : List Token) :
    formAhead (advance (.lparen :: rest)) = valueAhead (.lparen :: rest) := by
  cases rest <;> rfl

theorem LexState.next_ahead (ls : LexState) : ls.next.ahead = advance ls.ahead := by
  unfold LexState.next LexState.ahead
  cases ls.rest <;> rfl

/-- `lineChunkname` on the tokens ahead. -/
def skipString : List Token → List Token
  | .string s :: rest => advance (.string s :: rest)
  | ahead => ahead

/-- `lineNumber` on the tokens ahead. -/
def skipNumber : List Token → List Token
  | .number n :: rest => advance (.number n :: rest)
  | .cdata cd :: rest => advance (.cdata cd :: rest)
  | ahead => ahead

theorem lineChunkname_ahead (ls : LexState) :
    Ensures lineChunkname ls fun _ ls' => ls'.ahead = skipString ls.ahead := by
  unfold Ensures lineChunkname LexState.ahead
  rw [wp_bind, wp_get]
  cases at_ : ls.tok with
  | string s => exact LexState.next_ahead { ls with chunkname := s, tok := .string s }
  | _ => exact congrArg (· :: _) at_

theorem lineNumber_ahead (ls : LexState) :
    Ensures lineNumber ls fun _ ls' => ls'.ahead = skipNumber ls.ahead := by
  unfold Ensures lineNumber LexState.ahead
  rw [wp_bind, wp_get]
  cases at_ : ls.tok with
  | number n => exact LexState.next_ahead { ls with linenumber := n.num2int, tok := .number n }
  | cdata cd => exact LexState.next_ahead { ls with linenumber := -2147483648, tok := .cdata cd }
  | _ => exact congrArg (· :: _) at_

private theorem valueAhead_advance (rest : List Token) :
    valueAhead (advance (.rparen :: rest)) = valueAhead rest := by
  cases rest <;> rfl

/-- The tokens of a `!line` are skipped as `valueAhead` skips them. -/
theorem formAhead_line {head : Token} {rest : List Token} (isLine : headOf head = some .line)
    (closed : (skipNumber (skipString (advance (head :: rest)))).head? = some .rparen) :
    valueAhead (advance (skipNumber (skipString (advance (head :: rest))))) =
      formAhead (head :: rest) := by
  conv_rhs => unfold formAhead valueAhead
  simp only [isLine]
  rcases rest with _ | ⟨first, rest⟩
  · simp [advance, skipString, skipNumber] at closed
  cases first with
  | rparen => exact valueAhead_advance rest
  | string s =>
      rcases rest with _ | ⟨second, rest⟩
      · simp [advance, skipString, skipNumber] at closed
      cases second with
      | rparen => exact valueAhead_advance rest
      | number n =>
          rcases rest with _ | ⟨third, rest⟩
          · simp [advance, skipString, skipNumber] at closed
          cases third with
          | rparen => exact valueAhead_advance rest
          | _ => simp [advance, skipString, skipNumber] at closed
      | cdata cd =>
          rcases rest with _ | ⟨third, rest⟩
          · simp [advance, skipString, skipNumber] at closed
          cases third with
          | rparen => exact valueAhead_advance rest
          | _ => simp [advance, skipString, skipNumber] at closed
      | _ => simp [advance, skipString, skipNumber] at closed
  | number n =>
      rcases rest with _ | ⟨second, rest⟩
      · simp [advance, skipString, skipNumber] at closed
      cases second with
      | rparen => exact valueAhead_advance rest
      | _ => simp [advance, skipString, skipNumber] at closed
  | cdata cd =>
      rcases rest with _ | ⟨second, rest⟩
      · simp [advance, skipString, skipNumber] at closed
      cases second with
      | rparen => exact valueAhead_advance rest
      | _ => simp [advance, skipString, skipNumber] at closed
  | _ => simp [advance, skipString, skipNumber] at closed

/-- After a `!line` the input stands at the expression the form leaves its value
to. -/
theorem parseLine_ahead {head : Token} {rest : List Token} (isLine : headOf head = some .line)
    (ls : LexState) (start : ls.ahead = advance (head :: rest)) :
    Ensures parseLine ls fun _ ls' => valueAhead ls'.ahead = formAhead (head :: rest) := by
  unfold Ensures parseLine
  rw [wp_bind]
  refine (lineChunkname_ahead ls).mono (fun _ ls1 moved1 => ?_) fun _ _ h => h
  rw [wp_bind]
  refine (lineNumber_ahead ls1).mono (fun _ ls2 moved2 => ?_) fun _ _ h => h
  rw [wp_lexCheck]
  split
  · next closed =>
      rw [moved1, start] at moved2
      rw [LexState.next_ahead, moved2]
      exact formAhead_line isLine (by rw [← moved2]; exact congrArg some closed)
  · trivial

/-! ## The record of consumed descriptors -/

/-- Every consumed descriptor was written if and only if a value was ahead. -/
def LogSound (s : ParseState) : Prop := ∀ consumed ∈ s.log, consumed.written = valueAhead consumed.ahead

/-- `m` answers with a descriptor if and only if `value` holds of the tokens it
starts at. -/
def WritesWhen (value : List Token → Bool) (m : ParseM (Option ExpDesc)) : Prop :=
  ∀ s, LogSound s →
    wp m s (fun result s' => LogSound s' ∧ result.isSome = value s.ls.ahead) fun _ => LogSound

/-- `m` answers with a descriptor always (`true`) or never (`false`). -/
abbrev Writes (b : Bool) (m : ParseM (Option ExpDesc)) : Prop := Yields LogSound (·.isSome = b) m

namespace LogSound

@[grind ←] theorem lift (m : EmitM α) : Preserves LogSound (liftM m : ParseM α) := by
  intro s sound
  change wp (inEmit m) s _ _
  rw [wp_inEmit]
  unfold wp
  cases m s.ls <;> exact sound

@[grind ←] theorem liftCode (m : CodeM α) : Preserves LogSound (liftM m : ParseM α) := lift (inCode m)

@[grind ←] theorem tokenLoop {body : α → ParseM (α ⊕ β)} (step : ∀ a, Preserves LogSound (body a)) (a : α) :
    Preserves LogSound (tokenLoop body a) :=
  .bind .get fun _ => .loop step _ a

theorem untilRparen (result : α → Prop) {body : α → ParseM α}
    (step : ∀ a, result a → Yields LogSound result (body a)) {a : α} (start : result a) :
    Yields LogSound result (untilRparen body a) := by
  refine .after .get fun _ => .loop result (fun a holds => ?_) _ start
  refine .after (lift _) fun closed => ?_
  cases closed with
  | true => exact .pure holds
  | false => exact .bind (step a holds) fun _ holds => .pure holds

end LogSound

theorem WritesWhen.preserves {value : List Token → Bool} {m : ParseM (Option ExpDesc)}
    (writes : WritesWhen value m) : Preserves LogSound m :=
  fun s sound => (writes s sound).mono (fun _ _ h => h.1) fun _ _ h => h

/-- A parser that writes whatever its input is. -/
theorem WritesWhen.const {m : ParseM (Option ExpDesc)} {b : Bool} {value : List Token → Bool}
    (writes : Writes b m) (s : ParseState) (sound : LogSound s) (same : value s.ls.ahead = b) :
    wp m s (fun result s' => LogSound s' ∧ result.isSome = value s.ls.ahead) fun _ => LogSound :=
  (writes s sound).mono (fun _ _ h => ⟨h.1, h.2.trans same.symm⟩) fun _ _ h => h

theorem noValue_writes {form : ParseM Unit} (sound : Preserves LogSound form) :
    Writes false (noValue form) :=
  .after sound fun _ => .pure rfl

theorem oneResult_writes {form : ParseM (Option ExpDesc)} (writes : Writes true form) :
    Writes true (oneResult form) := by
  refine .bind writes fun result isSome => ?_
  cases result with
  | none => exact absurd isSome (by simp)
  | some e => exact .after (LogSound.lift _) fun _ => .pure rfl

/-! ## The functions that consume descriptors -/

/-- The one-token expressions are values. -/
theorem exprToken_ahead (tok : Token) (ls : LexState) :
    Ensures (exprToken tok) ls fun _ _ => ∀ rest, valueAhead (tok :: rest) = true := by
  have trivially (m : EmitM ExpDesc) (always : ∀ rest, valueAhead (tok :: rest) = true) :
      Ensures m ls fun _ _ => ∀ rest, valueAhead (tok :: rest) = true := by
    unfold Ensures wp
    cases m ls with
    | ok _ _ => exact always
    | error _ _ => trivial
  cases tok with
  | number n => exact trivially _ fun _ => rfl
  | cdata cd => exact trivially _ fun _ => rfl
  | string s => exact trivially _ fun _ => rfl
  | name s => exact trivially _ fun _ => rfl
  | _ => trivial

/-- The operand was written if and only if a value was ahead. -/
def Operand.Exact (operand : Operand) : Prop := operand.written = valueAhead operand.ahead

@[grind ←] theorem Operand.use_sound {operand : Operand} (exact_ : operand.Exact) :
    Preserves LogSound operand.use := by
  refine .bind (fun s sound => ?_) fun _ => ?_
  · intro consumed member
    rcases List.mem_cons.mp member with rfl | member
    · exact exact_
    · exact sound consumed member
  · cases operand.slot with
    | some e => exact .pure e
    | none => exact .throw _

theorem mconcatLast_sound {ahead : List Token} {e2 : Option ExpDesc}
    (single : e2 = none → ahead.head? = some .rparen) :
    Preserves LogSound (mconcatLast ahead e2) := by
  cases e2 with
  | some e2 => exact .pure e2
  | none =>
      refine Operand.use_sound ?_
      obtain ⟨rest, rfl⟩ := List.head?_eq_some_iff.mp (single rfl)
      rfl

@[grind ←] theorem varNames_sound (final : Bool) (nvars : Nat) : Preserves LogSound (varNames final nvars) :=
  (LogSound.untilRparen (fun _ => True) (fun _ _ => .after (LogSound.lift _) fun _ =>
    .after (LogSound.lift _) fun _ => .pure trivial) trivial).preserves

@[grind ←] theorem parseParams_sound : Preserves LogSound parseParams := by
  refine .bind (LogSound.lift _) fun _ => .bind (LogSound.tokenLoop (fun n => ?_) 0) fun _ =>
    .bind (LogSound.lift _) fun _ => .bind (LogSound.lift _) fun _ => .bind (LogSound.lift _) fun _ =>
    .pure _
  refine .bind .get fun s => ?_
  cases s.ls.tok with
  | name _ =>
      refine .bind (LogSound.lift _) fun name => .ite ?_ ?_
      · exact .bind (LogSound.lift _) fun _ => .pure _
      · exact .bind (LogSound.lift _) fun _ => .pure _
  | _ => exact .pure _

theorem notEffect_of_binop {sp : SP} (isBinop : (token2binop sp).isSome = true) :
    (!sp.isEffect) = true := by
  cases sp <;> first | rfl | simp [token2binop] at isBinop

theorem fscopeBegin_ahead (loop : Bool) (ls : LexState) :
    Ensures (fscopeBegin loop) ls fun _ ls' => ls'.ahead = ls.ahead := by
  unfold Ensures fscopeBegin luaAssert modifyScopes modifyFs getFs
  simp only [wp_bind, wp_get, wp_modify, wp_pure]
  split <;> rfl

theorem headsForm_of_headOf {tok : Token} {sp : SP} (head : headOf tok = some sp) :
    sp.headsForm = true := by
  cases tok with
  | name s => exact (Option.filter_eq_some_iff.mp head).2
  | _ => cases head

theorem formAhead_table {tok : Token} {rest : List Token} (head : headOf tok = none) :
    formAhead (tok :: rest) = true := by
  unfold formAhead valueAhead
  simp only [head]

theorem formAhead_do {tok : Token} {rest : List Token} (head : headOf tok = some .do_) :
    ((advance (tok :: rest)).head? == some .lparen) = formAhead (tok :: rest) := by
  unfold formAhead valueAhead
  simp only [head]
  cases rest <;> rfl

theorem formAhead_other {tok : Token} {rest : List Token} {sp : SP} (head : headOf tok = some sp)
    (notDo : sp ≠ .do_) (notLine : sp ≠ .line) : (!sp.isEffect) = formAhead (tok :: rest) := by
  unfold formAhead valueAhead
  simp only [head]

section Forms

variable {stmt : StmtParser} (inner : ∀ v, WritesWhen formAhead (stmt v))

include inner

theorem expr_writesWhen (v : Slot) : WritesWhen valueAhead (expr stmt v) := by
  intro s sound
  unfold expr
  rw [wp_bind, wp_get]
  by_cases isForm : s.ls.tok = .lparen
  · rw [if_pos isForm, wp_bind]
    change wp (inEmit lexNext) s _ _
    rw [wp_inEmit, wp_lexNext]
    refine (inner v { s with ls := s.ls.next } sound).mono (fun _ _ h => ⟨h.1, ?_⟩) fun _ _ h => h
    rw [h.2, LexState.next_ahead, LexState.ahead, isForm]
    exact formAhead_advance _
  · rw [if_neg isForm, wp_bind]
    change wp (inEmit (exprToken s.ls.tok)) s _ _
    rw [wp_inEmit]
    refine (exprToken_ahead s.ls.tok s.ls).mono (fun _ _ value => ⟨sound, ?_⟩) fun _ _ _ => sound
    exact (value _).symm

theorem operand_exact (v : Slot) : Yields LogSound Operand.Exact (operand stmt v) := by
  intro s sound
  unfold operand
  simp only [wp_bind, wp_get, wp_pure]
  exact expr_writesWhen inner v s sound

@[grind ←] theorem operand_bind {v : Slot} {next : Operand → ParseM α}
    (rest : ∀ operand, operand.Exact → Preserves LogSound (next operand)) :
    Preserves LogSound (operand stmt v >>= next) :=
  .given (operand_exact inner v) rest

@[grind ←] theorem exprUse_sound (v : Slot) : Preserves LogSound (exprUse stmt v) :=
  .given (operand_exact inner v) fun _ => Operand.use_sound

@[grind ←] theorem exprNext_sound : Preserves LogSound (exprNext stmt) :=
  .bind (exprUse_sound inner none) fun _ => .bind (LogSound.lift _) fun _ => .pure _

@[grind ←] theorem exprCond_sound : Preserves LogSound (exprCond stmt) :=
  .bind (exprUse_sound inner none) fun _ => .bind (LogSound.lift _) fun _ => .pure _

theorem exprList_exact (v : Slot) :
    Yields LogSound (fun listed => listed.2.Exact) (exprList stmt v) := by
  refine .bind (operand_exact inner v) fun first firstExact => ?_
  refine LogSound.untilRparen (fun listed : Nat × Operand => listed.2.Exact)
    (fun listed lastExact => ?_) firstExact
  refine .after (Operand.use_sound lastExact) fun _ => .after (LogSound.lift _) fun _ => ?_
  exact .bind (operand_exact inner _) fun _ exact_ => .pure exact_

@[grind ←] theorem exprList_bind {v : Slot} {next : Nat × Operand → ParseM α}
    (rest : ∀ listed, listed.2.Exact → Preserves LogSound (next listed)) :
    Preserves LogSound (exprList stmt v >>= next) :=
  .given (exprList_exact inner v) rest

@[grind ←] theorem parseArgs_sound : Preserves LogSound (parseArgs stmt) := by
  refine .bind (LogSound.lift _) fun closed => .ite (.pure _) ?_
  refine .given (exprList_exact inner none) fun listed lastExact => ?_
  refine .bind (Operand.use_sound lastExact) fun args => .ite ?_ (.pure _)
  exact .bind (LogSound.lift _) fun _ => .pure _

@[grind ←] theorem exprTableItem_sound (ts : TableState) : Preserves LogSound (exprTableItem stmt ts) := by
  refine .given (operand_exact inner none) fun val valExact => ?_
  refine .bind (LogSound.lift _) fun keyed => .ite ?_ ?_
  · refine .bind (Operand.use_sound valExact) fun val => .bind (LogSound.lift _) fun key => ?_
    have rest (ts : TableState) : Preserves LogSound (do
        let val ← exprUse stmt (some val)
        pure ({ ts with vcall := false }, key, val)) :=
      .bind (exprUse_sound inner _) fun _ => .pure _
    exact .ite (.bind (LogSound.lift _) fun _ => rest _) (rest _)
  · exact .bind (Operand.use_sound valExact) fun _ => .pure _

theorem exprTable_writes : Writes true (exprTable stmt) := by
  refine .after (LogSound.lift _) fun fs => .after (LogSound.lift _) fun pc => ?_
  refine .after (LogSound.lift _) fun _ => .after ?_ fun ts => ?_
  · refine (LogSound.untilRparen (fun _ => True) (fun ts _ => ?_) trivial).preserves
    refine .after (exprTableItem_sound inner ts) fun item => ?_
    exact .after (LogSound.lift _) fun _ => .after (LogSound.lift _) fun _ => .pure trivial
  · exact .after (LogSound.lift _) fun _ => .pure rfl

theorem parseUnop_writes (sp : SP) (v : Slot) : Writes true (parseUnop stmt sp v) :=
  .after (exprUse_sound inner v) fun _ => .after (LogSound.lift _) fun _ =>
    .after (LogSound.lift _) fun _ => .pure rfl

theorem parseUnopBnotEmulated_writes : Writes true (parseUnopBnotEmulated stmt) :=
  .after (LogSound.lift _) fun _ => .bind (operand_exact inner none) fun _ argsExact =>
    .after (LogSound.lift _) fun _ => .after (Operand.use_sound argsExact) fun _ =>
    .after (LogSound.lift _) fun _ => .pure rfl

theorem parseBinop_writes [Vm] (sp : SP) (v : Slot) : Writes true (parseBinop stmt sp v) := by
  unfold parseBinop
  cases token2binop sp with
  | none => exact fun _ sound => sound
  | some op =>
      exact .after (exprUse_sound inner v) fun _ => .after (LogSound.lift _) fun _ =>
        .after (exprUse_sound inner none) fun _ => .after (LogSound.lift _) fun _ =>
        .after (LogSound.lift _) fun _ => .pure rfl

theorem parseBinopEmulated_writes (sp : SP) : Writes true (parseBinopEmulated stmt sp) :=
  .after (LogSound.lift _) fun _ => .after (exprUse_sound inner none) fun _ =>
    .after (LogSound.lift _) fun _ => .bind (operand_exact inner _) fun _ argsExact =>
    .after (LogSound.lift _) fun _ => .after (Operand.use_sound argsExact) fun _ =>
    .after (LogSound.lift _) fun _ => .pure rfl

/-- With a single operand `!mconcat` reads a descriptor nothing wrote; the
tokens ahead are then the closing parenthesis. -/
theorem mconcatOperands_single (s : ParseState) (sound : LogSound s) :
    wp (mconcatOperands stmt) s
      (fun e2 s' => LogSound s' ∧ (e2 = none → s.ls.ahead.head? = some .rparen))
      (fun _ => LogSound) := by
  refine wp_untilRparen
    (fun e2 s' => LogSound s' ∧ (e2 = none → s'.ls.ahead = s.ls.ahead))
    (fun e2 s' holds _ => ?_) (fun e2 s' holds closed => ?_) (fun _ _ holds => holds.1)
    none s ⟨sound, fun _ => rfl⟩
  · have more : Yields LogSound (· ≠ none) (do
        pure (some (← exprTonextreg (← exprUse stmt e2))) : ParseM (Option ExpDesc)) :=
      .after (exprUse_sound inner e2) fun _ => .after (LogSound.lift _) fun _ => .pure (by simp)
    exact (more s' holds.1).mono (fun _ _ h => ⟨h.1, fun isNone => absurd isNone h.2⟩)
      fun _ _ h => h
  · refine ⟨holds.1, fun isNone => ?_⟩
    rw [← holds.2 isNone]
    exact congrArg some closed

theorem parseMconcat_writes (v : Slot) : Writes true (parseMconcat stmt v) := by
  refine .after .get fun start => .after (exprUse_sound inner v) fun first => ?_
  refine .after (LogSound.lift _) fun e1 s sound => ?_
  rw [wp_bind, wp_get, wp_bind]
  refine (mconcatOperands_single inner s sound).mono (fun e2 s' h => ?_) fun _ _ h => h
  have rest : Writes true (do
      let e2 ← mconcatLast s.ls.ahead e2
      pure (some (← bcemitMconcat start.ls.linenumber e1 e2))) :=
    .after (mconcatLast_sound h.2) fun _ => .after (LogSound.lift _) fun _ => .pure rfl
  exact rest s' h.1

theorem parseIndex_writes (v : Slot) : Writes true (parseIndex stmt v) :=
  .after (exprUse_sound inner v) fun _ => .after (LogSound.lift _) fun _ =>
    .after (exprUse_sound inner none) fun _ => .after (LogSound.lift _) fun _ =>
    .after (LogSound.lift _) fun _ => .after (LogSound.lift _) fun _ => .pure rfl

theorem parseCall_writes (v : Slot) : Writes true (parseCall stmt v) :=
  .after (exprUse_sound inner v) fun _ => .after (LogSound.lift _) fun _ =>
    .after (LogSound.lift _) fun _ => .after (parseArgs_sound inner) fun _ =>
    .after (LogSound.lift _) fun _ => .pure rfl

theorem parseCallmeth_writes (v : Slot) : Writes true (parseCallmeth stmt v) :=
  .after (exprUse_sound inner v) fun _ => .after (LogSound.lift _) fun _ =>
    .after (LogSound.lift _) fun _ => .after (LogSound.lift _) fun _ =>
    .after (parseArgs_sound inner) fun _ => .after (LogSound.lift _) fun _ => .pure rfl

/-! ## Statements -/

theorem parseAssignmentRhs_sound (lh : ExpDesc) (nvars : Nat) :
    Preserves LogSound (parseAssignmentRhs stmt lh nvars) := by
  refine .bind (LogSound.lift _) fun _ => .given (exprList_exact inner none) fun listed exact_ => ?_
  refine .bind (Operand.use_sound exact_) fun e => .ite ?_ ?_
  · exact .bind (LogSound.lift _) fun _ => .bind (LogSound.lift _) fun _ => .pure _
  · exact .bind (LogSound.lift _) fun _ => LogSound.lift _

theorem parseLhs_sound (lh : List ExpDesc) : Preserves LogSound (parseLhs stmt lh) := by
  unfold parseLhs
  grind

theorem parseAssignment_sound (fuel : Nat) (lh : ExpDesc) (prev : List ExpDesc) (nvars : Nat) :
    Preserves LogSound (parseAssignment_ stmt fuel lh prev nvars) := by
  induction fuel generalizing lh prev nvars with
  | zero => exact .throw _
  | succ fuel induction =>
      refine .bind (LogSound.lift _) fun _ => .bind (LogSound.lift _) fun closed => .ite ?_ ?_
      · exact .bind (parseAssignmentRhs_sound inner lh nvars) fun _ => .pure _
      refine .bind (parseLhs_sound inner _) fun lhs => .bind (LogSound.lift _) fun _ => ?_
      refine .bind (induction lhs.1 lhs.2 (nvars + 1)) fun left => ?_
      cases left with
      | nil => exact .throw _
      | cons lh prev => exact .bind (LogSound.lift _) fun _ => .pure _

theorem parseMassign_sound : Preserves LogSound (parseMassign stmt) :=
  .bind (LogSound.lift _) fun _ => .bind (exprUse_sound inner none) fun _ => .bind .get fun _ =>
    .bind (parseAssignment_sound inner _ _ _ _) fun _ => LogSound.lift _

theorem parseAssign_writes (v : Slot) : Writes true (parseAssign stmt v) :=
  .after (exprUse_sound inner none) fun _ => .after (LogSound.lift _) fun _ =>
    .after (exprUse_sound inner v) fun _ => .after (LogSound.lift _) fun _ =>
    .after (LogSound.lift _) fun _ => .after (LogSound.lift _) fun _ => .pure rfl

theorem parseMdefine_sound : Preserves LogSound (parseMdefine stmt) := by
  refine .bind (by grind) fun _ => .bind (by grind) fun nvars => ?_
  refine .bind (by grind) fun closed => .ite (by grind) ?_
  refine .bind (by grind) fun _ => exprList_bind inner fun _ _ => ?_
  grind

theorem parseDefine_sound : Preserves LogSound (parseDefine stmt) := by
  refine .bind (LogSound.lift _) fun _ => .bind (LogSound.lift _) fun _ => ?_
  refine .bind (LogSound.lift _) fun closed => .ite ?_ ?_
  · exact .bind (LogSound.lift _) fun _ => LogSound.lift _
  · exact .given (operand_exact inner none) fun _ exact_ =>
      .bind (LogSound.lift _) fun _ => .bind (Operand.use_sound exact_) fun _ =>
      .bind (LogSound.lift _) fun _ => LogSound.lift _

theorem parseMlet_sound : Preserves LogSound (parseMlet stmt) :=
  .bind (LogSound.lift _) fun _ => .bind (varNames_sound true 0) fun _ =>
    .bind (LogSound.lift _) fun _ => .given (exprList_exact inner none) fun _ exact_ =>
    .bind (LogSound.lift _) fun _ => .bind (Operand.use_sound exact_) fun _ =>
    .bind (LogSound.lift _) fun _ => LogSound.lift _

theorem parseLet_sound : Preserves LogSound (parseLet stmt) :=
  .bind (LogSound.lift _) fun _ => .bind (LogSound.lift _) fun _ =>
    .given (operand_exact inner none) fun _ exact_ =>
    .bind (LogSound.lift _) fun _ => .bind (Operand.use_sound exact_) fun _ =>
    .bind (LogSound.lift _) fun _ => LogSound.lift _

theorem parseLetrec_sound : Preserves LogSound (parseLetrec stmt) :=
  .bind (LogSound.lift _) fun _ => .bind (LogSound.lift _) fun _ => .bind (LogSound.lift _) fun _ =>
    .bind (exprUse_sound inner none) fun _ => .bind (LogSound.lift _) fun _ => LogSound.lift _

theorem parseReturn_sound : Preserves LogSound (parseReturn stmt) := by
  refine .bind (LogSound.lift _) fun _ => .bind (LogSound.lift _) fun closed => .ite ?_ ?_
  · exact LogSound.lift (emitReturn _)
  · exact .given (exprList_exact inner none) fun _ exact_ =>
      .bind (Operand.use_sound exact_) fun _ => .bind (LogSound.lift _) fun _ => LogSound.lift _

/-! ## Chunks, blocks and loops -/

/-- The statement of a chunk whose parenthesis has been opened. -/
theorem statement_sound : Yields LogSound (Sum.elim (·.isSome = true) fun _ => False) (do
    synlevelBegin
    let e := (← stmt (some .zeroed)).getD .zeroed
    endStatement e
    synlevelEnd
    pure (.inl (some e)) : ParseM (Option ExpDesc ⊕ Option ExpDesc)) :=
  .after (LogSound.lift _) fun _ => .after (inner _).preserves fun _ =>
    .after (LogSound.lift _) fun _ => .after (LogSound.lift _) fun _ => .pure rfl

/-- A chunk writes its descriptor unless it is empty. -/
theorem parseChunk_writesWhen :
    WritesWhen (fun ahead => ahead.head? == some .lparen) (parseChunk stmt) := by
  intro s sound
  -- Nothing has been written before the first statement.
  refine wp_tokenLoop (fun v s' => LogSound s' ∧
      (if v.isSome then s.ls.tok = .lparen else s'.ls.tok = s.ls.tok))
    (fun v s' holds => ?_) (fun _ _ holds => holds.1) none s ⟨sound, by simp⟩
  obtain ⟨sound, written⟩ := holds
  rw [wp_bind]
  change wp (inEmit (lexOpt .lparen)) s' _ _
  rw [wp_inEmit, wp_lexOpt]
  by_cases opened : s'.ls.tok = .lparen
  · rw [if_pos opened]
    refine (statement_sound inner { s' with ls := s'.ls.next } sound).mono ?_ fun _ _ h => h
    rintro (v' | v') s2 ⟨sound2, isSome⟩
    · refine ⟨sound2, ?_⟩
      change v'.isSome = true at isSome
      rw [isSome, if_pos rfl]
      cases v with
      | none => exact written.symm.trans opened
      | some e => exact written
    · exact isSome.elim
  · rw [if_neg opened]
    refine ⟨sound, ?_⟩
    change v.isSome = (some s.ls.tok == some .lparen)
    cases v with
    | none =>
        change s'.ls.tok = s.ls.tok at written
        rw [← written]
        simp [opened]
    | some e => simp [show s.ls.tok = .lparen from written]

theorem parseBody_sound : Preserves LogSound (parseBody stmt) :=
  .bind (LogSound.lift _) fun _ => .bind parseParams_sound fun _ => .bind (LogSound.lift _) fun _ =>
    .bind (LogSound.lift _) fun _ => .bind (parseChunk_writesWhen inner).preserves fun _ =>
    .bind .get fun _ => .bind (fun _ sound => sound) fun _ => LogSound.lift _

theorem parseLambda_writes : Writes true (parseLambda stmt) :=
  .after .get fun _ => .after (LogSound.lift _) fun _ => .after (parseBody_sound inner) fun _ =>
    .after (LogSound.lift _) fun _ => .after (LogSound.lift _) fun _ => .pure rfl

@[grind ←] theorem parseBlock_sound : Preserves LogSound (parseBlock stmt) :=
  .bind (LogSound.lift _) fun _ => .bind (parseChunk_writesWhen inner).preserves fun _ =>
    .bind (LogSound.lift _) fun _ => LogSound.lift _

theorem parseWhile_sound : Preserves LogSound (parseWhile stmt) := by
  unfold parseWhile
  repeat' with_reducible refine .bind ?_ fun _ => ?_
  all_goals grind

theorem repeatBody_exact : Yields LogSound Operand.Exact (repeatBody stmt) := by
  refine .after .get fun _ => .loop (fun _ => True) (fun _ _ => ?_) _ trivial
  refine .after (LogSound.lift _) fun _ => .bind (operand_exact inner _) fun last exact_ => ?_
  refine .after (LogSound.lift _) fun _ => .after (LogSound.lift _) fun _ => ?_
  exact .after (LogSound.lift _) fun _ => .ite (.pure exact_) (.pure trivial)

@[grind ←] theorem repeatBody_bind {next : Operand → ParseM α}
    (rest : ∀ operand, operand.Exact → Preserves LogSound (next operand)) :
    Preserves LogSound (repeatBody stmt >>= next) :=
  .given (repeatBody_exact inner) rest

theorem parseRepeat_sound : Preserves LogSound (parseRepeat stmt) := by
  unfold parseRepeat
  iterate 6 refine .bind (by grind) fun _ => ?_
  refine repeatBody_bind inner fun _ _ => ?_
  repeat' with_reducible refine .bind ?_ fun _ => ?_
  all_goals grind

theorem parseLoop_sound : Preserves LogSound (parseLoop stmt) := by
  unfold parseLoop
  repeat' with_reducible refine .bind ?_ fun _ => ?_
  all_goals grind

theorem parseFor_sound : Preserves LogSound (parseFor stmt) := by
  unfold parseFor
  iterate 9 refine .bind (by grind) fun _ => ?_
  refine exprList_bind inner fun _ _ => ?_
  repeat' with_reducible refine .bind ?_ fun _ => ?_
  all_goals grind

@[grind ←] theorem condArm_sound (escapelist : BCPos) :
    Preserves LogSound (condArm stmt escapelist) := by
  unfold condArm
  grind

@[grind ←] theorem condArms_sound : Preserves LogSound (condArms stmt) := by
  unfold condArms
  grind

theorem parseCond_sound : Preserves LogSound (parseCond stmt) := by
  unfold parseCond
  grind

@[grind ←] theorem parseBranch_sound (v : Slot) : Preserves LogSound (parseBranch stmt v) :=
  .bind (LogSound.lift _) fun _ => .bind (inner v).preserves fun _ =>
    .bind (LogSound.lift _) fun _ => .pure _

theorem parseIf_sound : Preserves LogSound (parseIf stmt) := by
  refine .bind (exprCond_sound inner) fun _ => .bind (LogSound.lift _) fun _ =>
    .bind (parseBranch_sound inner none) fun _ => .bind (LogSound.lift _) fun hasElse => ?_
  have rest (escapelist : BCPos) : Preserves LogSound (do
      liftM (jmpTohere escapelist)
      liftM (lexCheck .rparen .rparen) : ParseM Unit) :=
    .bind (LogSound.liftCode _) fun _ => LogSound.lift _
  refine .ite ?_ (.bind (LogSound.liftCode _) fun _ => rest _)
  exact .bind (LogSound.lift _) fun _ => .bind (LogSound.liftCode _) fun _ =>
    .bind (LogSound.liftCode _) fun _ => .bind (parseBranch_sound inner _) fun _ => rest _

/-! ## The dispatch -/

/-- The forms other than `!do` and `!line` write or do not write whatever their
input is. -/
theorem parseForm_writes [Vm] (sp : SP) (v : Slot) (heads : sp.headsForm = true)
    (notDo : sp ≠ .do_) (notLine : sp ≠ .line) :
    Writes (!sp.isEffect) (parseForm stmt sp v) := by
  cases binop : token2binop sp with
  | some op =>
      have isBinop : (token2binop sp).isSome = true := by rw [binop]; rfl
      rw [parseForm_binop stmt isBinop, notEffect_of_binop isBinop]
      exact parseBinop_writes inner sp v
  | none =>
  cases sp with
  | vararg | nil | false_ | true_ => exact absurd heads (by decide)
  | do_ => exact absurd rfl notDo
  | line => exact absurd rfl notLine
  | neg | not | len => exact parseUnop_writes inner _ v
  | bnot => exact oneResult_writes (parseUnopBnotEmulated_writes inner)
  | idiv | band | bor | bxor | shl | shr =>
      exact oneResult_writes (parseBinopEmulated_writes inner _)
  | assign => exact parseAssign_writes inner v
  | break_ => exact noValue_writes (LogSound.lift _)
  | call => exact parseCall_writes inner v
  | call1 => exact oneResult_writes (parseCall_writes inner v)
  | callmeth => exact parseCallmeth_writes inner v
  | callmeth1 => exact oneResult_writes (parseCallmeth_writes inner v)
  | cond => exact noValue_writes (parseCond_sound inner)
  | define => exact noValue_writes (parseDefine_sound inner)
  | for_ => exact noValue_writes (parseFor_sound inner)
  | goto => exact noValue_writes (LogSound.lift _)
  | if_ => exact noValue_writes (parseIf_sound inner)
  | index => exact parseIndex_writes inner v
  | label => exact noValue_writes (LogSound.lift _)
  | lambda => exact parseLambda_writes inner
  | let_ => exact noValue_writes (parseLet_sound inner)
  | letrec => exact noValue_writes (parseLetrec_sound inner)
  | loop => exact noValue_writes (parseLoop_sound inner)
  | massign => exact noValue_writes (parseMassign_sound inner)
  | mconcat => exact parseMconcat_writes inner v
  | mdefine => exact noValue_writes (parseMdefine_sound inner)
  | mlet => exact noValue_writes (parseMlet_sound inner)
  | repeat_ => exact noValue_writes (parseRepeat_sound inner)
  | return_ => exact noValue_writes (parseReturn_sound inner)
  | while_ => exact noValue_writes (parseWhile_sound inner)
  | _ => exact absurd binop (by simp [token2binop])

theorem parseDo_writesWhen :
    WritesWhen (fun ahead => ahead.head? == some .lparen) (parseDo stmt) := by
  intro s sound
  unfold parseDo
  rw [wp_bind]
  change wp (inEmit (fscopeBegin false)) s _ _
  rw [wp_inEmit]
  refine (fscopeBegin_ahead false s.ls).mono (fun _ ls' same => ?_) fun _ _ _ => sound
  rw [wp_bind]
  refine (parseChunk_writesWhen inner { s with ls := ls' } sound).mono (fun e s' h => ?_)
    fun _ _ h => h
  have rest : Yields LogSound (· = e) (do
      liftM (lexCheck .rparen .rparen)
      liftM fscopeEnd
      pure e : ParseM (Option ExpDesc)) :=
    .after (LogSound.lift _) fun _ => .after (LogSound.lift _) fun _ => .pure rfl
  refine (rest s' h.1).mono (fun _ _ h' => ⟨h'.1, ?_⟩) fun _ _ h => h
  rw [h'.2, h.2, same]

theorem stmtForm_writesWhen [Vm] (v : Slot) : WritesWhen formAhead (stmtForm stmt v) := by
  intro s sound
  unfold stmtForm
  rw [wp_bind, wp_get]
  cases head : headOf s.ls.tok with
  | none =>
      exact WritesWhen.const (exprTable_writes inner) s sound (formAhead_table head)
  | some sp =>
      simp only
      rw [wp_bind]
      change wp (inEmit lexNext) s _ _
      rw [wp_inEmit, wp_lexNext]
      by_cases isDo : sp = .do_
      · subst isDo
        refine (parseDo_writesWhen inner { s with ls := s.ls.next } sound).mono
          (fun _ _ h => ⟨h.1, ?_⟩) fun _ _ h => h
        rw [h.2, LexState.next_ahead]
        exact formAhead_do head
      by_cases isLine : sp = .line
      · subst isLine
        change wp (liftM parseLine >>= fun _ => expr stmt v) _ _ _
        rw [wp_bind]
        change wp (inEmit parseLine) _ _ _
        rw [wp_inEmit]
        refine (parseLine_ahead head s.ls.next s.ls.next_ahead).mono (fun _ ls' at_ => ?_)
          fun _ _ _ => sound
        refine (expr_writesWhen inner v { s with ls := ls' } sound).mono (fun _ _ h => ⟨h.1, ?_⟩)
          fun _ _ h => h
        rw [h.2, at_]
        rfl
      · have writes := parseForm_writes inner sp v (headsForm_of_headOf head) isDo isLine
        refine (writes { s with ls := s.ls.next } sound).mono (fun _ _ h => ⟨h.1, ?_⟩) fun _ _ h => h
        exact h.2.trans (formAhead_other head isDo isLine)

theorem parseMain_sound : Preserves LogSound (parseMain stmt) := by
  refine .bind (LogSound.lift _) fun _ => .bind (LogSound.lift _) fun _ =>
    .bind (LogSound.lift _) fun _ => .bind (parseChunk_writesWhen inner).preserves fun _ => ?_
  have finish : Preserves LogSound (do fsFinish (← get).ls.linenumber : ParseM GCproto) :=
    .bind .get fun _ => LogSound.lift _
  exact .bind .get fun _ => .ite (.bind (LogSound.lift _) fun _ => finish) finish

end Forms

theorem parseStmt_writesWhen [Vm] (depth : Nat) (v : Slot) :
    WritesWhen formAhead (parseStmt depth v) := by
  induction depth generalizing v with
  | zero => exact fun _ sound => sound
  | succ depth induction => exact stmtForm_writesWhen induction v

/-- What a compilation has recorded when it ends, with or without an error. -/
def consumedLog [Vm] (chunkname : GCstr) (items : List LexItem) : List Consumed :=
  (finalState (ljParse chunkname items)).log

theorem consumed_written_eq [Vm] (chunkname : GCstr) (items : List LexItem) :
    ∀ consumed ∈ consumedLog chunkname items, consumed.written = valueAhead consumed.ahead :=
  (parseMain_sound fun v => parseStmt_writesWhen _ v).finalState fun _ member => by cases member

end TvmJit
