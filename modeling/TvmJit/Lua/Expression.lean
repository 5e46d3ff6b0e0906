import TvmJit.Lua.Grammar

/-! `P:expr` writes the tree that the grammar has for an expression. -/

namespace TvmJit

open Lexer

/-! ## Priorities -/

namespace LuaToken

/-- A binary operator binds what stands before it no tighter than `limit`. -/
def BindsAtMost (limit : Nat) (tok : LuaToken) : Prop :=
  ∀ left right, tok.priority = some (left, right) → left ≤ limit

/-- The tokens a suffix starts with. -/
def isSuffix : LuaToken → Bool
  | dot | lbracket | colon | lparen | lbrace | string _ => Bool.true
  | _ => Bool.false

/-- No expression goes on with the token. -/
def Ends (tok : LuaToken) : Prop := tok.priority = none ∧ tok.isSuffix = Bool.false

theorem Ends.bindsAtMost {tok : LuaToken} (ends : tok.Ends) (limit : Nat) : tok.BindsAtMost limit := by
  intro left right priority
  rw [ends.1] at priority
  cases priority

end LuaToken

theorem LuaUnop.unop_token (op : LuaUnop) :
    ∃ s, op.token.unop = some s ∧ GCstr.ofString s = ch '(' :: (op.sp.str ++ [ch ' ']) := by
  cases op <;> exact ⟨_, rfl, by decide +kernel⟩

namespace LuaBinop

def left (op : LuaBinop) : Nat := (op.token.priority.getD (0, 0)).1
def right (op : LuaBinop) : Nat := (op.token.priority.getD (0, 0)).2

variable {op op' : LuaBinop}

theorem priority_token (op : LuaBinop) : op.token.priority = some (op.left, op.right) := by
  cases op <;> rfl

theorem binop_token (op : LuaBinop) :
    ∃ s, op.token.binop = some s ∧ GCstr.ofString s = ch '(' :: (op.sp.str ++ [ch ' ']) := by
  cases op <;> exact ⟨_, rfl, by decide +kernel⟩

theorem isSuffix_token (op : LuaBinop) : op.token.isSuffix = false := by
  cases op <;> rfl

/-- The priority of a level; the one of the unary operators is 12. -/
theorem right_eq (op : LuaBinop) : op.right = op.level + if op.level ≤ 8 then 0 else 1 := by
  cases op <;> rfl

theorem left_eq (op : LuaBinop) : op.left = op.right + if op.rightAssoc then 1 else 0 := by
  cases op <;> rfl

theorem rightAssoc_eq (op : LuaBinop) : op.rightAssoc = (op.level == 8 || op.level == 12) := by
  cases op <;> rfl

theorem level_bounds (op : LuaBinop) : 1 ≤ op.level ∧ op.level ≤ 12 ∧ op.level ≠ 11 := by
  cases op <;> decide

/-- An operator behind `op'` is not part of its right operand. -/
theorem left_le_right (first : op.level < op'.level ∨ (op.level = op'.level ∧ op.rightAssoc = false)) :
    op.left ≤ op'.right := by
  rw [left_eq, right_eq, right_eq]
  rcases first with lower | ⟨same, isLeft⟩
  · split <;> split <;> split <;> omega
  · rw [isLeft, same]
    simp

/-- An operator behind the right operand's start is part of the operand. -/
theorem right_lt_left (last : op.level < op'.level ∨ (op.level = op'.level ∧ op.rightAssoc = true)) :
    op.right < op'.left := by
  rw [left_eq, right_eq, right_eq]
  rcases last with lower | ⟨same, isRight⟩
  · split <;> split <;> omega
  · rw [rightAssoc_eq, same, ← rightAssoc_eq] at isRight
    rw [isRight, same]
    simp

theorem level_le_of_right_le (lower : op.level ≤ op'.level) : op.right ≤ op'.right ∧ op.left ≤ op'.left := by
  rw [left_eq, left_eq, right_eq, right_eq, rightAssoc_eq, rightAssoc_eq]
  have bounds := op.level_bounds
  have bounds' := op'.level_bounds
  constructor
  · split <;> split <;> omega
  · simp only [Bool.or_eq_true, beq_iff_eq]
    split <;> split <;> split <;> split <;> omega

theorem left_le_twelve (le : op.left ≤ op'.right) : op.left ≤ 12 := by
  have right : op'.right ≤ 13 := by cases op' <;> decide
  have left : op.left ≤ 12 ∨ op.left = 14 := by cases op <;> decide
  omega

theorem bindsAtMost_iff {limit : Nat} : op.token.BindsAtMost limit ↔ op.left ≤ limit := by
  unfold LuaToken.BindsAtMost
  rw [op.priority_token]
  constructor
  · intro binds
    exact binds _ _ rfl
  · intro le left right same
    cases same
    exact le

end LuaBinop

/-! ## What is part of an expression -/

section

variable [Tonumber] [LuaBody]

namespace LuaExpr

/-- A token behind the expression is not part of it. -/
def ClosedBefore (tok : LuaToken) : LuaExpr → Prop
  | suffixed _ => tok.isSuffix = Bool.false
  | unop _ e => tok.BindsAtMost 12 ∧ e.ClosedBefore tok
  | binop op _ r => tok.BindsAtMost op.right ∧ r.ClosedBefore tok
  | _ => True

/-- `P:expr` with this limit takes the whole expression. -/
def Admissible (limit : Nat) : LuaExpr → Prop
  | binop op l _ => limit < op.left ∧ l.Admissible limit
  | _ => True

/-- An operator of this priority does not take a part of the expression before it. -/
def Tight (left : Nat) : LuaExpr → Prop
  | unop _ _ => left ≤ 12
  | binop op _ _ => left ≤ op.right
  | _ => True

theorem tight_of_mayStandLeft {op : LuaBinop} {e : LuaExpr} (may : e.MayStandLeft op) :
    e.Tight op.left := by
  cases e with
  | unop u e =>
      have lower : op.level < 11 := may
      have left : op.level < 11 → op.left ≤ 12 := by cases op <;> decide
      exact left lower
  | binop op' l r => exact LuaBinop.left_le_right may
  | _ => trivial

/-- What binds tighter than an operator ends before it. -/
theorem closedBefore_of_tight {op : LuaBinop} :
    (e : LuaExpr) → e.Respects → e.Tight op.left → e.ClosedBefore op.token
  | nil, _, _ => trivial
  | true, _, _ => trivial
  | false, _, _ => trivial
  | dots, _, _ => trivial
  | number _, _, _ => trivial
  | string _, _, _ => trivial
  | function _, _, _ => trivial
  | table _, _, _ => trivial
  | suffixed _, _, _ => op.isSuffix_token
  | unop u e, respects, tight => by
      refine ⟨LuaBinop.bindsAtMost_iff.mpr tight, closedBefore_of_tight e respects.2 ?_⟩
      have tight : op.left ≤ 12 := tight
      cases e with
      | unop u e => exact tight
      | binop op' l r =>
          have may : 11 < op'.level := respects.1
          have right := op'.right_eq
          change op.left ≤ op'.right
          split at right <;> omega
      | _ => trivial
  | binop op' l r, respects, tight => by
      refine ⟨LuaBinop.bindsAtMost_iff.mpr tight, closedBefore_of_tight r respects.2.2.2 ?_⟩
      have tight : op.left ≤ op'.right := tight
      have may := respects.2.1
      cases r with
      | unop u e => exact LuaBinop.left_le_twelve tight
      | binop op'' l r =>
          have lower : op'.level ≤ op''.level := by
            rcases may with lower | ⟨same, -⟩ <;> omega
          exact tight.trans (LuaBinop.level_le_of_right_le lower).1
      | _ => trivial

theorem closedBefore_of_ends {tok : LuaToken} (ends : tok.Ends) : (e : LuaExpr) → e.ClosedBefore tok
  | nil => trivial
  | true => trivial
  | false => trivial
  | dots => trivial
  | number _ => trivial
  | string _ => trivial
  | function _ => trivial
  | table _ => trivial
  | suffixed _ => ends.2
  | unop _ e => ⟨ends.bindsAtMost 12, closedBefore_of_ends ends e⟩
  | binop op _ r => ⟨ends.bindsAtMost op.right, closedBefore_of_ends ends r⟩

/-- The outer operator is one `P:expr` takes with this limit. -/
def Above (limit : Nat) : LuaExpr → Prop
  | binop op _ _ => limit < op.left
  | _ => True

theorem admissible_of_above {limit : Nat} :
    (e : LuaExpr) → e.Respects → e.Above limit → e.Admissible limit
  | nil, _, _ => trivial
  | true, _, _ => trivial
  | false, _, _ => trivial
  | dots, _, _ => trivial
  | number _, _, _ => trivial
  | string _, _, _ => trivial
  | function _, _, _ => trivial
  | table _, _, _ => trivial
  | suffixed _, _, _ => trivial
  | unop _ _, _, _ => trivial
  | binop op l r, respects, above => by
      refine ⟨above, admissible_of_above l respects.2.2.1 ?_⟩
      have above : limit < op.left := above
      have may := respects.1
      cases l with
      | binop op' l r =>
          have lower : op.level ≤ op'.level := by
            rcases may with lower | ⟨same, -⟩ <;> omega
          exact above.trans_le (LuaBinop.level_le_of_right_le lower).2
      | _ => trivial

theorem above_zero (e : LuaExpr) : e.Above 0 := by
  cases e with
  | binop op l r =>
      have positive : 0 < op.left := by cases op <;> decide
      exact positive
  | _ => trivial

theorem above_of_mayStandRight {op : LuaBinop} {e : LuaExpr} (may : e.MayStandRight op) :
    e.Above op.right := by
  cases e with
  | binop op' l r => exact LuaBinop.right_lt_left may
  | _ => trivial

theorem above_of_mayStandUnary {e : LuaExpr} (may : e.MayStandUnary) : e.Above 12 := by
  cases e with
  | binop op l r =>
      have higher : 11 < op.level := may
      have left : 11 < op.level → 12 < op.left := by cases op <;> decide
      exact left higher
  | _ => trivial

end LuaExpr

end

/-! ## How an expression starts -/

/-- The token in front. -/
def front (toks : List LuaToken) : LuaToken := toks.head?.getD .eof

/-- No token of these starts an expression. -/
def LuaToken.startsNone : LuaToken → Bool
  | rparen | rbrace | lbracket | semi | eof | other _ => Bool.true
  | _ => Bool.false

/-- The tokens start like an expression: not like a field with a key, or the end of a list. -/
def StartsExpr : List LuaToken → Prop
  | [] => False
  | tok :: more => tok.startsNone = false ∧ ∀ s, tok = .name s → more.head? ≠ some .assign

theorem StartsExpr.append {toks more : List LuaToken} {tok : LuaToken} (starts : StartsExpr toks)
    (notAssign : tok ≠ .assign) : StartsExpr (toks ++ tok :: more) := by
  cases toks with
  | nil => cases starts
  | cons first toks =>
      refine ⟨starts.1, fun s isName => ?_⟩
      cases toks with
      | nil => simpa using notAssign
      | cons second toks => exact starts.2 s isName

theorem StartsExpr.front {toks : List LuaToken} (starts : StartsExpr toks) (rest : List LuaToken) :
    (TvmJit.front (toks ++ rest)).startsNone = false := by
  cases toks with
  | nil => cases starts
  | cons first toks => exact starts.1

section

variable [Tonumber] [LuaBody]

theorem LuaArgs.first (args : LuaArgs) :
    ∃ tok more, args.tokens = tok :: more ∧ (tok = .lparen ∨ tok = .lbrace ∨ ∃ s, tok = .string s) := by
  cases args <;> exact ⟨_, _, rfl, by simp⟩

/-- A suffixed expression starts with a name or a parenthesis. -/
theorem LuaSuffixed.first : (e : LuaSuffixed) →
    ∃ tok more, e.tokens = tok :: more ∧ (tok = .lparen ∨ ∃ s, tok = .name s)
  | .name n => ⟨_, _, rfl, .inr ⟨n.s, rfl⟩⟩
  | .paren _ => ⟨_, _, rfl, .inl rfl⟩
  | .dot e n => by
      obtain ⟨tok, more, shape, kind⟩ := first e
      exact ⟨tok, _, by rw [tokens, shape]; rfl, kind⟩
  | .index e k => by
      obtain ⟨tok, more, shape, kind⟩ := first e
      exact ⟨tok, _, by rw [tokens, shape]; rfl, kind⟩
  | .call e args => by
      obtain ⟨tok, more, shape, kind⟩ := first e
      exact ⟨tok, _, by rw [tokens, shape]; rfl, kind⟩
  | .method e n args => by
      obtain ⟨tok, more, shape, kind⟩ := first e
      exact ⟨tok, _, by rw [tokens, shape]; rfl, kind⟩

theorem LuaSuffixed.starts : (e : LuaSuffixed) → StartsExpr e.tokens
  | .name n => ⟨rfl, by simp⟩
  | .paren _ => ⟨rfl, by simp⟩
  | .dot e _ => (starts e).append (by simp)
  | .index e _ => (starts e).append (by simp)
  | .call e args => by
      obtain ⟨tok, more, shape, kind⟩ := args.first
      rw [tokens, shape]
      exact (starts e).append (by rcases kind with rfl | rfl | ⟨s, rfl⟩ <;> simp)
  | .method e _ _ => (starts e).append (by simp)

theorem LuaExpr.starts : (e : LuaExpr) → StartsExpr e.tokens
  | nil => ⟨rfl, by simp⟩
  | true => ⟨rfl, by simp⟩
  | false => ⟨rfl, by simp⟩
  | dots => ⟨rfl, by simp⟩
  | number _ => ⟨rfl, by simp⟩
  | string _ => ⟨rfl, by simp⟩
  | function _ => ⟨rfl, by simp⟩
  | table _ => ⟨rfl, by simp⟩
  | suffixed e => e.starts
  | unop op _ => by
      cases op <;> exact ⟨rfl, by simp [LuaUnop.token]⟩
  | binop op l r => by
      have notAssign : op.token ≠ .assign := by cases op <;> simp [LuaBinop.token]
      exact (starts l).append notAssign

theorem LuaExprs.starts : (es : LuaExprs) → StartsExpr es.tokens
  | .last e => e.starts
  | .more e _ => e.starts.append (by simp)

end

/-! ## Runs of the parser -/

/-- Before tokens that `stops` holds for, the rule takes the tokens and writes the text. -/
def Translates (depth : Nat) (rule : Nat → LuaP → Except LuaError LuaP) (toks : List LuaToken)
    (text : GCstr) (stops : LuaToken → Prop) : Prop :=
  ∀ steps (p : LuaP) rest, depth ≤ steps → stops (front rest) → p.toks.map Prod.fst = toks ++ rest →
    ∃ q, rule steps p = .ok q ∧ q.toks.map Prod.fst = rest ∧ q.out = p.out ++ text

theorem Translates.deeper {depth depth' : Nat} {rule : Nat → LuaP → Except LuaError LuaP}
    {toks : List LuaToken} {text : GCstr} {stops : LuaToken → Prop}
    (translates : Translates depth rule toks text stops) (more : depth ≤ depth') :
    Translates depth' rule toks text stops :=
  fun steps p rest enough => translates steps p rest (more.trans enough)

namespace LuaP

/-- The tokens without their lines. -/
def kinds (p : LuaP) : List LuaToken := p.toks.map Prod.fst

variable {p : LuaP} {tok : LuaToken} {rest : List LuaToken}

theorem token_eq (p : LuaP) : p.token = front p.kinds := by
  unfold token front kinds
  cases p.toks <;> rfl

theorem token_of (kinds : p.kinds = tok :: rest) : p.token = tok := by
  rw [token_eq, kinds]
  rfl

theorem next_kinds (kinds : p.kinds = tok :: rest) : p.next.kinds = rest := by
  change p.toks.tail.map Prod.fst = rest
  rw [List.map_tail]
  change p.kinds.tail = rest
  rw [kinds, List.tail_cons]

theorem quote_ok {s t : GCstr} (isQuoted : tvmQuote s = .ok t) : quote s = .ok t := by
  rw [quote, isQuoted]

theorem checknext_ok (kinds : p.kinds = tok :: rest) : p.checknext tok = .ok p.next :=
  if_pos (token_of kinds)

theorem checkMatch_ok (kinds : p.kinds = tok :: rest) (who : LuaToken) (line : Nat) :
    p.checkMatch tok who line = .ok p.next := if_pos (token_of kinds)

theorem strCheckname_ok {s : GCstr} (kinds : p.kinds = .name s :: rest) :
    p.strCheckname = .ok (s, p.next) := by
  rw [strCheckname, token_of kinds]

theorem fieldsel_ok {s t : GCstr} (isQuoted : tvmQuote s = .ok t)
    (kinds : p.kinds = tok :: .name s :: rest) : p.fieldsel = .ok (t, p.next.next) := by
  rw [fieldsel, strCheckname_ok (next_kinds kinds)]
  change quote s >>= _ = _
  rw [quote_ok isQuoted]
  rfl

section

variable [LuaBody] {depth steps : Nat} {one : Bool} {text : GCstr} {stops : LuaToken → Prop}

theorem exprLoop_stops {limit : Nat} {sav out : GCstr} (stops : p.token.BindsAtMost limit) :
    exprLoop (steps + 1) limit sav out p = .ok { p with out := sav ++ out } := by
  rw [exprLoop]
  split
  · next left right isOp priority =>
      have low := stops _ _ priority
      rw [if_neg (by omega)]
  · rfl

theorem suffixLoop_stops {line : Nat} {sav out : GCstr} (stops : p.token.isSuffix = false) :
    suffixLoop (steps + 1) one line sav out p = .ok { p with out := sav ++ out } := by
  rw [suffixLoop]
  cases isTok : p.token <;> first | rfl | (rw [isTok] at stops; cases stops)

/-! ### Simple expressions -/

theorem operand_simple (noOperator : p.token.unop = none) :
    operand (steps + 1) one p = simpleexpr steps one p := by
  rw [operand, noOperator]

theorem operand_single (noOperator : tok.unop = none) (isSingle : single tok = .ok (some text)) :
    Translates 2 (operand · one) [tok] text stops := by
  intro steps p rest enough _ kinds
  obtain ⟨steps, rfl⟩ : ∃ n, steps = n + 2 := ⟨steps - 2, by omega⟩
  have isTok := token_of kinds
  refine ⟨(p.emit text).next, ?_, next_kinds kinds, rfl⟩
  dsimp only
  rw [operand_simple (isTok ▸ noOperator), simpleexpr, isTok, isSingle]
  rfl

theorem constructor_translates {toks : List LuaToken}
    (run : Translates depth fields toks text (· = .rbrace)) :
    Translates (depth + 1) constructor (.lbrace :: (toks ++ [.rbrace])) (ch '(' :: (text ++ [ch ')']))
      stops := by
  intro steps p rest enough _ kinds
  obtain ⟨steps, rfl⟩ : ∃ n, steps = n + 1 := ⟨steps - 1, by omega⟩
  rw [List.cons_append, List.append_assoc] at kinds
  obtain ⟨q, ran, left, out⟩ := run steps (p.next.write "(") (.rbrace :: rest) (by omega) rfl
    (next_kinds kinds)
  have paren := lparen_bytes
  have close := rparen_bytes
  refine ⟨q.next.write ")", ?_, next_kinds left, ?_⟩
  · rw [constructor, checknext_ok kinds]
    change (fields steps (p.next.write "(") >>= _) = _
    rw [ran]
    change (q.checkMatch .rbrace .lbrace p.linenumber >>= _) = _
    rw [checkMatch_ok left]
    rfl
  · change q.out ++ GCstr.ofString ")" = _
    rw [out]
    change p.out ++ GCstr.ofString "(" ++ text ++ GCstr.ofString ")" = _
    simp [paren, close]

theorem operand_table {toks : List LuaToken} (run : Translates depth fields toks text (· = .rbrace)) :
    Translates (depth + 3) (operand · one) (.lbrace :: (toks ++ [.rbrace]))
      (ch '(' :: (text ++ [ch ')'])) stops := by
  intro steps p rest enough stopsRest kinds
  obtain ⟨steps, rfl⟩ : ∃ n, steps = n + 2 := ⟨steps - 2, by omega⟩
  have isTok := token_of kinds
  obtain ⟨q, ran, left, out⟩ := constructor_translates run steps p rest (by omega) stopsRest kinds
  refine ⟨q, ?_, left, out⟩
  dsimp only
  rw [operand_simple (by rw [isTok]; rfl), simpleexpr, isTok]
  exact ran

theorem operand_function {toks : List LuaToken}
    (run : ∀ line (p : LuaP) rest, p.toks.map Prod.fst = toks ++ rest →
      ∃ q, LuaBody.body line p = .ok q ∧ q.toks.map Prod.fst = rest ∧ q.out = p.out ++ text) :
    Translates 2 (operand · one) (.function :: toks) text stops := by
  intro steps p rest enough _ kinds
  obtain ⟨steps, rfl⟩ : ∃ n, steps = n + 2 := ⟨steps - 2, by omega⟩
  have isTok := token_of kinds
  obtain ⟨q, ran, left, out⟩ := run p.next.linenumber p.next rest (next_kinds kinds)
  refine ⟨q, ?_, left, out⟩
  dsimp only
  rw [operand_simple (by rw [isTok]; rfl), simpleexpr, isTok]
  exact ran

end

end LuaP

/-- What a numeral is in TP. One that starts with a dot is a name. -/
def LuaNumeral.written [Tonumber] (t : LuaNumeral) : Token :=
  if t.text.head? = some (ch '.') then .name t.text else .number t.value

theorem LuaNumeral.isAtom_written [Tonumber] (t : LuaNumeral) : t.written.isAtom = true := by
  unfold written
  split <;> rfl

theorem LuaNumeral.written_eq_iff [Tonumber] (t : LuaNumeral) :
    t.written = .number t.value ↔ t.text.head? ≠ some (ch '.') := by
  unfold written
  split
  · next isDot => simp [isDot]
  · next notDot => simp [notDot]

section

variable [Tonumber] [LuaBody]

open LuaP

namespace LuaExpr

/-- `P:expr` comes to its loop with the text of the expression. -/
def Loops (one : Bool) (e : LuaExpr) : Prop :=
  ∃ text cost depth, TextOf text (e.tree LuaNumeral.written one).tokens ∧
    ∀ steps limit (p : LuaP) rest, depth ≤ steps → e.Admissible limit → e.ClosedBefore (front rest) →
      p.kinds = e.tokens ++ rest →
        ∃ q, q.kinds = rest ∧ LuaP.expr (steps + cost) one limit p = exprLoop steps limit p.out text q

/-- `P:expr` writes a text of the expression where it takes all of it. -/
theorem Loops.translates {one : Bool} {e : LuaExpr} (loops : e.Loops one) :
    ∃ text depth, TextOf text (e.tree LuaNumeral.written one).tokens ∧
      ∀ limit, e.Admissible limit → Translates depth (LuaP.expr · one limit) e.tokens text
        fun tok => tok.BindsAtMost limit ∧ e.ClosedBefore tok := by
  obtain ⟨text, cost, depth, isText, run⟩ := loops
  refine ⟨text, depth + 1 + cost, isText, fun limit admissible steps p rest enough stops kinds => ?_⟩
  obtain ⟨steps, rfl⟩ : ∃ n, steps = n + 1 + cost := ⟨steps - 1 - cost, by omega⟩
  obtain ⟨q, left, loop⟩ := run (steps + 1) limit p rest (by omega) admissible stops.2 kinds
  refine ⟨{ q with out := p.out ++ text }, ?_, left, rfl⟩
  have atRest : q.token = front rest := by rw [token_eq, left]
  exact loop.trans (exprLoop_stops (atRest ▸ stops.1))

/-- An expression that is no binary operator. -/
theorem loops_of_operand {one : Bool} {e : LuaExpr} {text : GCstr} (depth : Nat)
    (isText : TextOf text (e.tree LuaNumeral.written one).tokens)
    (run : Translates depth (LuaP.operand · one) e.tokens text e.ClosedBefore) : e.Loops one := by
  refine ⟨text, 1, depth, isText, fun steps limit p rest enough _ closed kinds => ?_⟩
  obtain ⟨q, ran, left, out⟩ := run steps { p with out := [] } rest enough closed kinds
  refine ⟨q, left, ?_⟩
  have ran : LuaP.operand steps one { p with out := [] } = .ok q := ran
  rw [LuaP.expr, ran]
  change exprLoop steps limit p.out q.out q = _
  rw [out]
  rfl

end LuaExpr

end

end TvmJit
