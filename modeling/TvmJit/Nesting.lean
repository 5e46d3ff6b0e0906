import TvmJit.Parse.Steps
import TvmJit.Foundation.Agree

/-! How deeply the forms of a program nest. The parser counts the statements of
chunks and of 'repeat' in `ls->level`; every other form is parsed without being
counted. -/

namespace TvmJit

open Foundation

/-! ## What keeps the level -/

def LevelIs (level : Nat) (s : ParseState) : Prop := s.ls.level = level

/-- Started at this level, the two parsers have the same result and return at the
same level. -/
abbrev AtLevel (level : Nat) (m m' : ParseM α) : Prop := Agree (LevelIs level) (LevelIs level) m m'

theorem LexState.next_level (ls : LexState) : ls.next.level = ls.level := by
  unfold next
  split <;> rfl

theorem Step.level {ls ls' : LexState} (step : Step ls ls') : ls'.level = ls.level := by
  cases step with
  | token => exact ls.next_level
  | _ => rfl

section

variable {level : Nat}

@[grind ←] theorem liftEmit_level {m : EmitM α} (moves : EmitMoves m) :
    AtLevel level (liftM m : ParseM α) (liftM m) := by
  refine ⟨fun s start => ⟨rfl, fun value s' run => ?_⟩⟩
  have kept : (finalState (m s.ls)).level = level :=
    moves.invariant (fun _ _ step (before : LexState.level _ = level) => step.level.trans before) start
  change inEmit m s = .ok value s' at run
  unfold inEmit at run
  cases ran : m s.ls with
  | ok value' ls =>
      rw [ran] at run kept
      cases run
      exact kept
  | error e ls =>
      rw [ran] at run
      cases run

@[grind ←] theorem liftCode_level {m : CodeM α} (moves : CodeMoves m) :
    AtLevel level (liftM m : ParseM α) (liftM m) :=
  liftEmit_level (lift_moves moves)

@[grind ←] theorem tokenLoop_level {body body' : α → ParseM (α ⊕ β)}
    (each : ∀ a, AtLevel level (body a) (body' a)) (a : α) :
    AtLevel level (tokenLoop body a) (tokenLoop body' a) := by
  unfold tokenLoop; grind

@[grind ←] theorem untilRparen_level {body body' : α → ParseM α}
    (each : ∀ a, AtLevel level (body a) (body' a)) (a : α) :
    AtLevel level (untilRparen body a) (untilRparen body' a) := by
  refine tokenLoop_level (fun a => ?_) a
  grind

@[grind ←] instance Operand.use_level (operand : Operand) :
    AtLevel level operand.use operand.use := by
  refine .seq (.modify fun s holds => holds) fun _ => ?_
  cases operand.slot with
  | some e => exact .pure e
  | none => exact .throw _

@[grind ←] instance mconcatLast_level (ahead : List Token) (e2 : Option ExpDesc) :
    AtLevel level (mconcatLast ahead e2) (mconcatLast ahead e2) := by
  unfold mconcatLast; grind

@[grind ←] instance varNames_level (final : Bool) (nvars : Nat) :
    AtLevel level (varNames final nvars) (varNames final nvars) := by
  unfold varNames; grind

@[grind ←] instance parseParams_level : AtLevel level parseParams parseParams := by
  unfold parseParams
  repeat' with_reducible refine .seq ?_ fun _ => ?_
  all_goals grind

@[grind ←] theorem noValue_level {form form' : ParseM Unit} (agree : AtLevel level form form') :
    AtLevel level (noValue form) (noValue form') := by
  unfold noValue; grind

@[grind ←] theorem oneResult_level {form form' : ParseM (Option ExpDesc)}
    (agree : AtLevel level form form') : AtLevel level (oneResult form) (oneResult form') := by
  unfold oneResult
  refine .seq agree fun result => ?_
  cases result <;> grind

/-- What `synlevel_begin` starts is parsed one level up, and below the limit. -/
theorem synlevelBegin_bind {next next' : Unit → ParseM α} {post : ParseState → Prop}
    (inside : level + 1 < LJ_MAX_XLEVEL → Agree (LevelIs (level + 1)) post (next ()) (next' ())) :
    Agree (LevelIs level) post ((synlevelBegin : ParseM Unit) >>= next)
      ((synlevelBegin : ParseM Unit) >>= next') := by
  have begins : Agree (LevelIs level) (fun s => LevelIs (level + 1) s ∧ level + 1 < LJ_MAX_XLEVEL)
      (synlevelBegin : ParseM Unit) synlevelBegin := by
    refine ⟨fun s start => ⟨rfl, fun value s' run => ?_⟩⟩
    have start : s.ls.level = level := start
    change inEmit synlevelBegin s = .ok value s' at run
    unfold inEmit at run
    rw [synlevelBegin_run, start] at run
    by_cases deep : level + 1 ≥ LJ_MAX_XLEVEL
    · rw [if_pos deep] at run
      cases run
    · rw [if_neg deep] at run
      cases run
      exact ⟨rfl, Nat.lt_of_not_le deep⟩
  exact begins.bind fun _ => ⟨fun s started => (inside started.2).run s started.1⟩

theorem synlevelEnd_level : Agree (LevelIs (level + 1)) (LevelIs level)
    (synlevelEnd : ParseM Unit) synlevelEnd := by
  refine ⟨fun s start => ⟨rfl, fun value s' run => ?_⟩⟩
  have start : s.ls.level = level + 1 := start
  cases run
  change s.ls.level - 1 = level
  rw [start, Nat.add_sub_cancel]

end

/-! ## Forms -/

section Operands

variable {level : Nat} {stmt stmt' : StmtParser} [operands : ∀ v, AtLevel level (stmt v) (stmt' v)]

@[grind ←] instance expr_level (v : Slot) : AtLevel level (expr stmt v) (expr stmt' v) := by
  unfold expr; grind

@[grind ←] instance operand_level (v : Slot) : AtLevel level (operand stmt v) (operand stmt' v) := by
  unfold operand; grind

@[grind ←] instance exprUse_level (v : Slot) : AtLevel level (exprUse stmt v) (exprUse stmt' v) := by
  unfold exprUse; grind

@[grind ←] instance exprNext_level : AtLevel level (exprNext stmt) (exprNext stmt') := by
  unfold exprNext; grind

@[grind ←] instance exprCond_level : AtLevel level (exprCond stmt) (exprCond stmt') := by
  unfold exprCond; grind

@[grind ←] instance exprList_level (v : Slot) :
    AtLevel level (exprList stmt v) (exprList stmt' v) := by
  unfold exprList; grind

@[grind ←] instance parseIndex_level (v : Slot) :
    AtLevel level (parseIndex stmt v) (parseIndex stmt' v) := by
  unfold parseIndex
  repeat' with_reducible refine .seq ?_ fun _ => ?_
  all_goals grind

@[grind ←] instance exprTableItem_level (ts : TableState) :
    AtLevel level (exprTableItem stmt ts) (exprTableItem stmt' ts) := by
  unfold exprTableItem
  refine .seq (by grind) fun val => .seq (by grind) fun hasKey => ?_
  cases hasKey with
  | true =>
      refine .seq (by grind) fun val => .seq (by grind) fun key => .ite ?_ ?_
      · refine .seq (by grind) fun e => .seq (exprUse_level (some val)) fun val => .pure _
      · refine .seq (by grind) fun e => .seq (exprUse_level (some val)) fun val => .pure _
  | false => grind

@[grind ←] instance exprTable_level : AtLevel level (exprTable stmt) (exprTable stmt') := by
  unfold exprTable
  repeat' with_reducible refine .seq ?_ fun _ => ?_
  all_goals grind

@[grind ←] instance parseArgs_level : AtLevel level (parseArgs stmt) (parseArgs stmt') := by
  unfold parseArgs; grind

@[grind ←] instance parseUnop_level (sp : SP) (v : Slot) :
    AtLevel level (parseUnop stmt sp v) (parseUnop stmt' sp v) := by
  unfold parseUnop; grind

@[grind ←] instance parseUnopBnotEmulated_level :
    AtLevel level (parseUnopBnotEmulated stmt) (parseUnopBnotEmulated stmt') := by
  unfold parseUnopBnotEmulated
  repeat' with_reducible refine .seq ?_ fun _ => ?_
  all_goals grind

@[grind ←] instance parseBinop_level [Vm] (sp : SP) (v : Slot) :
    AtLevel level (parseBinop stmt sp v) (parseBinop stmt' sp v) := by
  unfold parseBinop
  cases token2binop sp with
  | none => exact .throw _
  | some op =>
      repeat' with_reducible refine .seq ?_ fun _ => ?_
      all_goals grind

@[grind ←] instance parseBinopEmulated_level (sp : SP) :
    AtLevel level (parseBinopEmulated stmt sp) (parseBinopEmulated stmt' sp) := by
  unfold parseBinopEmulated
  repeat' with_reducible refine .seq ?_ fun _ => ?_
  all_goals grind

@[grind ←] instance mconcatOperands_level :
    AtLevel level (mconcatOperands stmt) (mconcatOperands stmt') := by
  unfold mconcatOperands; grind

@[grind ←] instance parseMconcat_level (v : Slot) :
    AtLevel level (parseMconcat stmt v) (parseMconcat stmt' v) := by
  unfold parseMconcat
  repeat' with_reducible refine .seq ?_ fun _ => ?_
  all_goals grind

@[grind ←] instance parseCall_level (v : Slot) :
    AtLevel level (parseCall stmt v) (parseCall stmt' v) := by
  unfold parseCall
  repeat' with_reducible refine .seq ?_ fun _ => ?_
  all_goals grind

@[grind ←] instance parseCallmeth_level (v : Slot) :
    AtLevel level (parseCallmeth stmt v) (parseCallmeth stmt' v) := by
  unfold parseCallmeth
  repeat' with_reducible refine .seq ?_ fun _ => ?_
  all_goals grind

@[grind ←] instance parseAssignmentRhs_level (lh : ExpDesc) (nvars : Nat) :
    AtLevel level (parseAssignmentRhs stmt lh nvars) (parseAssignmentRhs stmt' lh nvars) := by
  unfold parseAssignmentRhs
  repeat' with_reducible refine .seq ?_ fun _ => ?_
  all_goals grind

@[grind ←] instance parseLhs_level (lh : List ExpDesc) :
    AtLevel level (parseLhs stmt lh) (parseLhs stmt' lh) := by
  unfold parseLhs; grind

@[grind ←] instance parseAssignment_level (fuel : Nat) (lh : ExpDesc) (prev : List ExpDesc)
    (nvars : Nat) :
    AtLevel level (parseAssignment_ stmt fuel lh prev nvars) (parseAssignment_ stmt' fuel lh prev nvars) := by
  induction fuel generalizing lh prev nvars with
  | zero => exact .throw _
  | succ fuel induction =>
      unfold parseAssignment_
      repeat' with_reducible refine .seq ?_ fun _ => ?_
      all_goals grind

@[grind ←] instance parseMassign_level : AtLevel level (parseMassign stmt) (parseMassign stmt') := by
  unfold parseMassign
  repeat' with_reducible refine .seq ?_ fun _ => ?_
  all_goals grind

@[grind ←] instance parseAssign_level (v : Slot) :
    AtLevel level (parseAssign stmt v) (parseAssign stmt' v) := by
  unfold parseAssign
  repeat' with_reducible refine .seq ?_ fun _ => ?_
  all_goals grind

@[grind ←] instance parseMdefine_level : AtLevel level (parseMdefine stmt) (parseMdefine stmt') := by
  unfold parseMdefine
  repeat' with_reducible refine .seq ?_ fun _ => ?_
  all_goals grind

@[grind ←] instance parseDefine_level : AtLevel level (parseDefine stmt) (parseDefine stmt') := by
  unfold parseDefine
  repeat' with_reducible refine .seq ?_ fun _ => ?_
  all_goals grind

@[grind ←] instance parseMlet_level : AtLevel level (parseMlet stmt) (parseMlet stmt') := by
  unfold parseMlet
  repeat' with_reducible refine .seq ?_ fun _ => ?_
  all_goals grind

@[grind ←] instance parseLet_level : AtLevel level (parseLet stmt) (parseLet stmt') := by
  unfold parseLet
  repeat' with_reducible refine .seq ?_ fun _ => ?_
  all_goals grind

@[grind ←] instance parseLetrec_level : AtLevel level (parseLetrec stmt) (parseLetrec stmt') := by
  unfold parseLetrec
  repeat' with_reducible refine .seq ?_ fun _ => ?_
  all_goals grind

@[grind ←] instance parseReturn_level : AtLevel level (parseReturn stmt) (parseReturn stmt') := by
  unfold parseReturn
  repeat' with_reducible refine .seq ?_ fun _ => ?_
  all_goals grind

@[grind ←] instance parseBranch_level (v : Slot) :
    AtLevel level (parseBranch stmt v) (parseBranch stmt' v) := by
  unfold parseBranch
  repeat' with_reducible refine .seq ?_ fun _ => ?_
  all_goals grind

@[grind ←] instance parseIf_level : AtLevel level (parseIf stmt) (parseIf stmt') := by
  unfold parseIf
  repeat' with_reducible first | refine .seq ?_ fun _ => ?_ | refine .ite ?_ ?_
  all_goals grind

end Operands

section Statements

variable {level : Nat} {stmt stmt' : StmtParser}
  (statements : level + 1 < LJ_MAX_XLEVEL → ∀ v, AtLevel (level + 1) (stmt v) (stmt' v))

include statements

@[grind ←] theorem parseChunk_level : AtLevel level (parseChunk stmt) (parseChunk stmt') := by
  refine tokenLoop_level (fun v => .seq (by grind) fun found => ?_) none
  cases found with
  | true =>
      refine synlevelBegin_bind fun small => .bind (statements small _) fun e => ?_
      exact .bind (liftEmit_level (endStatement_moves _)) fun _ =>
        .bind synlevelEnd_level fun _ => .pure _
  | false => exact .pure _

@[grind ←] theorem parseBody_level : AtLevel level (parseBody stmt) (parseBody stmt') := by
  unfold parseBody
  repeat' with_reducible refine .seq ?_ fun _ => ?_
  all_goals grind

@[grind ←] theorem parseLambda_level : AtLevel level (parseLambda stmt) (parseLambda stmt') := by
  unfold parseLambda
  repeat' with_reducible refine .seq ?_ fun _ => ?_
  all_goals grind

@[grind ←] theorem parseBlock_level : AtLevel level (parseBlock stmt) (parseBlock stmt') := by
  unfold parseBlock
  repeat' with_reducible refine .seq ?_ fun _ => ?_
  all_goals grind

@[grind ←] theorem parseDo_level : AtLevel level (parseDo stmt) (parseDo stmt') := by
  unfold parseDo
  repeat' with_reducible refine .seq ?_ fun _ => ?_
  all_goals grind

@[grind ←] theorem repeatBody_level : AtLevel level (repeatBody stmt) (repeatBody stmt') := by
  refine tokenLoop_level (fun _ => ?_) ()
  refine synlevelBegin_bind fun small => ?_
  have inside := statements small
  refine .bind (operand_level _) fun last => ?_
  refine .bind (liftEmit_level (endStatement_moves _)) fun _ => .bind synlevelEnd_level fun _ => ?_
  grind

@[grind ←] theorem parseRepeat_level : AtLevel level (parseRepeat stmt) (parseRepeat stmt') := by
  unfold parseRepeat
  repeat' with_reducible refine .seq ?_ fun _ => ?_
  all_goals grind

theorem parseMain_level : AtLevel level (parseMain stmt) (parseMain stmt') := by
  unfold parseMain
  repeat' with_reducible refine .seq ?_ fun _ => ?_
  all_goals grind

variable [operands : ∀ v, AtLevel level (stmt v) (stmt' v)]

include operands

@[grind ←] theorem parseWhile_level : AtLevel level (parseWhile stmt) (parseWhile stmt') := by
  unfold parseWhile
  repeat' with_reducible refine .seq ?_ fun _ => ?_
  all_goals grind

@[grind ←] theorem parseLoop_level : AtLevel level (parseLoop stmt) (parseLoop stmt') := by
  unfold parseLoop
  repeat' with_reducible refine .seq ?_ fun _ => ?_
  all_goals grind

@[grind ←] theorem parseFor_level : AtLevel level (parseFor stmt) (parseFor stmt') := by
  unfold parseFor
  repeat' with_reducible refine .seq ?_ fun _ => ?_
  all_goals grind

@[grind ←] theorem condArm_level (escapelist : BCPos) :
    AtLevel level (condArm stmt escapelist) (condArm stmt' escapelist) := by
  unfold condArm
  repeat' with_reducible refine .seq ?_ fun _ => ?_
  all_goals grind

@[grind ←] theorem condArms_level : AtLevel level (condArms stmt) (condArms stmt') := by
  refine tokenLoop_level (fun escapelist => ?_) _
  grind

@[grind ←] theorem parseCond_level : AtLevel level (parseCond stmt) (parseCond stmt') := by
  unfold parseCond
  repeat' with_reducible refine .seq ?_ fun _ => ?_
  all_goals grind

theorem parseForm_level [Vm] (sp : SP) (v : Slot) :
    AtLevel level (parseForm stmt sp v) (parseForm stmt' sp v) := by
  cases sp <;> dsimp only [parseForm] <;> grind

theorem stmtForm_level [Vm] (v : Slot) : AtLevel level (stmtForm stmt v) (stmtForm stmt' v) := by
  refine .seq .get fun s => ?_
  cases headOf s.ls.tok with
  | some sp => exact .seq (by grind) fun _ => parseForm_level statements sp v
  | none => exact exprTable_level

end Statements

/-! ## Nested forms -/

/-- How a form is entered: as a statement of a chunk or of a 'repeat', which is
counted in `ls->level`, or as an operand of the form around it. -/
inductive Place
  | statement
  | operand
  deriving DecidableEq, Repr

/-- The nesting inside a form entered at the level `inside`, from one at `level`. -/
def enter (path : List Place) (level inside : Nat) : List Place :=
  (if inside = level then .operand else .statement) :: path

/-- The statement parser with a check at every form: a nesting that is not allowed
raises the error of `synlevel_begin`. A nesting lists the places of the open forms,
the innermost first; `level` is the level of the form around. -/
def guardedStmt [Vm] (allowed : List Place → Bool) : Nat → List Place → Nat → StmtParser
  | 0, _, _ => fun _ => throw .outOfFuel
  | depth + 1, path, level => fun v => do
      let inside := (← get).ls.level
      if allowed (enter path level inside) then
        stmtForm (guardedStmt allowed depth (enter path level inside) inside) v
      else errLex .xlevels

/-- `lj_parse` with a check at every form. -/
def guardedParse [Vm] (allowed : List Place → Bool) (chunkname : GCstr) (items : List LexItem) :
    EStateM.Result ParseError ParseState GCproto :=
  parseMain (guardedStmt allowed (items.length + 1) [] 0) ⟨.start chunkname items, []⟩

/-- Compiling the program opens no other nestings of forms than these: `lj_parse`
does what it would do with a check at every form. -/
def NestsOnly [Vm] (allowed : List Place → Bool) (chunkname : GCstr) (items : List LexItem) : Prop :=
  guardedParse allowed chunkname items = ljParse chunkname items

theorem guardedStmt_run [Vm] (allowed : List Place → Bool) (depth : Nat) (path : List Place)
    (level : Nat) (v : Slot) (s : ParseState) :
    guardedStmt allowed (depth + 1) path level v s =
      if allowed (enter path level s.ls.level) then
        stmtForm (guardedStmt allowed depth (enter path level s.ls.level) s.ls.level) v s
      else inEmit (errLex .xlevels) s := by
  have step (k : ParseState → ParseM (Option ExpDesc)) : (get >>= k) s = k s s := rfl
  rw [guardedStmt]
  dsimp only
  rw [step]
  by_cases open_ : allowed (enter path level s.ls.level) = true
  · rw [if_pos open_, if_pos open_]
  · rw [if_neg open_, if_neg open_]
    rfl

/-- Nestings that count fewer statements than `LJ_MAX_XLEVEL` are all the parser
meets: what is allowed beyond them makes no difference. -/
theorem guardedStmt_agree [Vm] {allowed allowed' : List Place → Bool}
    (same : ∀ path, path.count .statement < LJ_MAX_XLEVEL → allowed path = allowed' path)
    (depth : Nat) {path : List Place} {level inside : Nat}
    (counted : (enter path level inside).count .statement = inside) (small : inside < LJ_MAX_XLEVEL)
    (v : Slot) :
    AtLevel inside (guardedStmt allowed depth path level v)
      (guardedStmt allowed' depth path level v) := by
  induction depth generalizing path level inside v with
  | zero => exact .throw _
  | succ depth induction =>
      refine ⟨fun s start => ?_⟩
      have start : s.ls.level = inside := start
      have operandPath : (enter (enter path level inside) inside inside).count .statement = inside := by
        rw [enter, if_pos rfl, List.count_cons_of_ne (by decide), counted]
      have statementPath :
          (enter (enter path level inside) inside (inside + 1)).count .statement = inside + 1 := by
        rw [enter, if_neg (Nat.succ_ne_self inside), List.count_cons_self, counted]
      have operands := induction operandPath small
      have form := stmtForm_level (fun small => induction statementPath small) v
      rw [guardedStmt_run, guardedStmt_run, start]
      have sameHere := same (enter path level inside) (counted.symm ▸ small)
      by_cases open_ : allowed (enter path level inside) = true
      · rw [if_pos open_, if_pos (sameHere ▸ open_)]
        exact form.run s start
      · rw [if_neg open_, if_neg (sameHere ▸ open_)]
        exact ⟨rfl, fun _ _ run => nomatch run⟩

theorem guardedStmt_all [Vm] (depth : Nat) (path : List Place) (level : Nat) :
    guardedStmt (fun _ => true) depth path level = parseStmt depth := by
  induction depth generalizing path level with
  | zero => rfl
  | succ depth induction =>
      funext v s
      rw [guardedStmt_run, induction, if_pos rfl]
      rfl

theorem guardedParse_congr [Vm] {allowed allowed' : List Place → Bool}
    (same : ∀ path, path.count .statement < LJ_MAX_XLEVEL → allowed path = allowed' path)
    (chunkname : GCstr) (items : List LexItem) :
    guardedParse allowed chunkname items = guardedParse allowed' chunkname items := by
  have outermost : (enter [] 0 1).count .statement = 1 := rfl
  have statements (small : 0 + 1 < LJ_MAX_XLEVEL) :=
    guardedStmt_agree same (items.length + 1) outermost small
  exact (parseMain_level statements).eq rfl

/-- No program nests `LJ_MAX_XLEVEL` statements of chunks. -/
theorem statements_bounded [Vm] (chunkname : GCstr) (items : List LexItem) :
    NestsOnly (fun path => path.count .statement < LJ_MAX_XLEVEL) chunkname items := by
  have all : guardedParse (fun _ => true) chunkname items = ljParse chunkname items := by
    unfold guardedParse
    rw [guardedStmt_all]
    rfl
  unfold NestsOnly
  rw [← all]
  exact guardedParse_congr (fun path small => decide_eq_true small) chunkname items

theorem length_eq_count {path : List Place} (counted : .operand ∉ path) :
    path.length = path.count .statement := by
  refine (List.count_eq_length.mpr fun place member => ?_).symm
  cases place with
  | statement => rfl
  | operand => exact absurd member counted

def accepted : EStateM.Result ParseError ParseState GCproto → Bool
  | .ok _ _ => true
  | .error _ _ => false

/-- `(!not (!not … !nil))`, with as many forms as the limit. -/
def nestedNots (n : Nat) : List LexItem :=
  let heads : List Token := (List.replicate n [.lparen, .name (.ofString "!not")]).flatten
  let tail : List Token := .name (.ofString "!nil") :: List.replicate n .rparen
  (heads ++ tail).map (⟨·, 0⟩)

end TvmJit
