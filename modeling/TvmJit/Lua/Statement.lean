import TvmJit.Lua.Precedence

/-! The statements of `lunokhod.lua` that have a list of expressions, and the conditions. The
statements inside of statements are left out. -/

namespace TvmJit

/-! ## Grammar rules -/

namespace LuaP

variable [LuaBody]

/-- `P:block_follow(true)`. -/
def blockFollow (p : LuaP) : Bool :=
  p.token = .other "else" ∨ p.token = .other "elseif" ∨ p.token = .other "end" ∨ p.token = .eof ∨
    p.token = .other "until"

/-- `P:retstat`. -/
def retstat (steps : Nat) (p : LuaP) : Except LuaError LuaP := do
  let p := p.write "(!return "
  let p ← if !p.blockFollow ∧ p.token ≠ .semi then explist steps p else .ok p
  let p := p.write ")"
  return if p.token = .semi then p.next else p

/-- `P:assignment`. -/
def assignment : Nat → LuaP → Except LuaError LuaP
  | 0, _ => .error .outOfFuel
  | steps + 1, p =>
      if p.token = .comma then do
        let p ← suffixedexp steps false (p.next.write " ")
        assignment steps p
      else do
        let p ← p.checknext .assign
        let p ← explist steps (p.write ") (")
        return p.write "))"

/-- `P:exprstat`. -/
def exprstat (steps : Nat) (p : LuaP) : Except LuaError LuaP := do
  let q ← suffixedexp steps false { p with out := [] }
  if q.token = .assign ∨ q.token = .comma then
    assignment steps { q with out := p.out ++ .ofString "(!massign (" ++ q.out }
  else return { q with out := p.out ++ q.out }

/-- The names of `P:localstat`, and `multi`. -/
def localnames : Nat → LuaP → Except LuaError (Bool × LuaP)
  | 0, _ => .error .outOfFuel
  | steps + 1, p => do
      let (name, p) ← p.strCheckname
      let p := p.emit name
      if p.token = .comma then do
        let (_, p) ← localnames steps (p.write " ").next
        return (true, p)
      else return (false, p)

/-- The values of `P:localstat`. -/
def localvalues (multi : Bool) (steps : Nat) (p : LuaP) : Except LuaError LuaP := do
  let p ← explist steps (p.next.write (if multi then "(" else " "))
  return if multi then p.write ")" else p

/-- `P:localstat`. The start of the form is written once `multi` is known. -/
def localstat (steps : Nat) (p : LuaP) : Except LuaError LuaP := do
  let (multi, q) ← localnames steps { p with out := [] }
  let q : LuaP :=
    if multi then { q with out := p.out ++ .ofString "(!mdefine (" ++ q.out ++ .ofString ")" }
    else { q with out := p.out ++ .ofString "(!define " ++ q.out }
  let q ← if q.token = .assign then localvalues multi steps q else .ok q
  return q.write ")"

/-- The condition of a statement, behind what `start` is written for. -/
def condition (start : String) (steps : Nat) (p : LuaP) : Except LuaError LuaP :=
  expr steps true 0 (p.write start)

/-- `P:whilestat`, with the rule for the block. -/
def whilestat (block : LuaP → Except LuaError LuaP) (steps line : Nat) (p : LuaP) :
    Except LuaError LuaP := do
  let p ← condition "(!while " steps p.next
  let p ← block (← (p.write "\n").checknext (.other "do"))
  p.checkMatch (.other "end") (.other "while") line

/-- `P:repeatstat`, with the rule for the statements. -/
def repeatstat (statlist : LuaP → Except LuaError LuaP) (steps line : Nat) (p : LuaP) :
    Except LuaError LuaP := do
  let p ← statlist (p.next.write "(!repeat")
  let p ← p.checkMatch (.other "until") (.other "repeat") line
  let p ← condition "\n" steps p
  return p.write ")"

/-- `P:test_then_block`, with the rule for the block. -/
def testThenBlock (block : LuaP → Except LuaError LuaP) (steps : Nat) (p : LuaP) :
    Except LuaError LuaP := do
  let p ← condition "(!if " steps p.next
  let p ← (p.write "\n").checknext (.other "then")
  block (p.write "(!do")

end LuaP

/-! ## Phrases -/

/-- The statements with a condition. -/
inductive LuaTest
  | while_ | if_ | repeat_
  deriving DecidableEq, Repr

namespace LuaTest

/-- What is written in front of the condition. -/
def start : LuaTest → String
  | while_ => "(!while "
  | if_ => "(!if "
  | repeat_ => "\n"

def sp : LuaTest → SP
  | while_ => .while_
  | if_ => .if_
  | repeat_ => .repeat_

end LuaTest

variable [Tonumber] [LuaBody]

/-- An expression, or a part of a statement that has expressions. -/
inductive LuaPhrase
  | expr (one : Bool) (e : LuaExpr)
  | return_ (es : LuaExprs)
  | local_ (first : LuaName) (more : List LuaName) (es : LuaExprs)
  | assign (first : LuaSuffixed) (more : List LuaSuffixed) (es : LuaExprs)
  | condition (test : LuaTest) (e : LuaExpr)

namespace LuaPhrase

/-- The tokens behind the first variable of an assignment. -/
def assignmentTokens (more : List LuaSuffixed) (es : LuaExprs) : List LuaToken :=
  more.flatMap (fun e => .comma :: e.tokens) ++ .assign :: es.tokens

/-- The tokens behind the first name of a declaration. -/
def namesTokens (more : List LuaName) (es : LuaExprs) : List LuaToken :=
  more.flatMap (fun n => [.comma, .name n.s]) ++ .assign :: es.tokens

def tokens : LuaPhrase → List LuaToken
  | expr _ e => e.tokens
  | return_ es => es.tokens
  | local_ first more es => .name first.s :: namesTokens more es
  | assign first more es => first.tokens ++ assignmentTokens more es
  | condition _ e => e.tokens

def Respects : LuaPhrase → Prop
  | expr _ e => e.Respects
  | return_ es => es.Respects
  | local_ _ _ es => es.Respects
  | assign first more es => first.Respects ∧ (∀ e ∈ more, e.Respects) ∧ es.Respects
  | condition _ e => e.Respects

/-- The rule that reads the phrase, behind a first `return` or `local`. -/
def rule : LuaPhrase → Nat → LuaP → Except LuaError LuaP
  | expr one _ => (LuaP.expr · one 0)
  | return_ _ => LuaP.retstat
  | local_ _ _ _ => LuaP.localstat
  | assign _ _ _ => LuaP.exprstat
  | condition test _ => LuaP.condition test.start

/-- The tokens that may stand behind. -/
def Stops (tok : LuaToken) : LuaPhrase → Prop
  | expr _ e => tok.BindsAtMost 0 ∧ e.ClosedBefore tok
  | return_ _ => tok.Ends ∧ tok ≠ .comma ∧ tok ≠ .semi
  | condition _ _ => tok.Ends
  | _ => tok.Ends ∧ tok ≠ .comma

/-- What is written for a phrase with this text. -/
def out (text : GCstr) : LuaPhrase → GCstr
  | condition test _ => .ofString test.start ++ text
  | _ => text

/-- The text as a whole form: a condition is read alone in the form of its statement. -/
def whole (text : GCstr) : LuaPhrase → GCstr
  | condition test _ => ch '(' :: (test.sp.str ++ ch ' ' :: text ++ [ch ')'])
  | _ => text

/-- The rule takes the phrase as a whole and writes the text. -/
def Writes (phrase : LuaPhrase) (text : GCstr) : Prop :=
  ∃ enough, ∀ steps ≥ enough, ∀ (p : LuaP) rest,
    phrase.Stops (front rest) → p.toks.map Prod.fst = phrase.tokens ++ rest →
      ∃ q, phrase.rule steps p = .ok q ∧ q.toks.map Prod.fst = rest ∧ q.out = p.out ++ phrase.out text

def nameEntries (names : List LuaName) : TpEntries :=
  names.foldr (fun n => .item (.atom (.name n.s))) .nil

def varEntries (vars : List LuaSuffixed) : TpEntries :=
  vars.foldr (fun e => .item (e.tree LuaNumeral.written false)) .nil

def tree : LuaPhrase → TpTree
  | expr one e => e.tree LuaNumeral.written one
  | return_ es => .form .return_ (es.entries LuaNumeral.written)
  | local_ first [] es => .form .define (.item (.atom (.name first.s)) (es.entries LuaNumeral.written))
  | local_ first more es =>
      .form .mdefine (.item (.table (nameEntries (first :: more)))
        (.item (.table (es.entries LuaNumeral.written)) .nil))
  | assign first more es =>
      .form .massign (.item (.table (varEntries (first :: more)))
        (.item (.table (es.entries LuaNumeral.written)) .nil))
  | condition test e => .form test.sp (.item (e.tree LuaNumeral.written true) .nil)

end LuaPhrase

/-! ## Translation -/

open LuaP

/-- `P:suffixedexp` writes the expression where no suffix stands behind. -/
theorem LuaSuffixed.Loops.whole {one : Bool} {e : LuaSuffixed} (loops : e.Loops one) :
    ∃ text depth, TextOf text (e.tree LuaNumeral.written one).tokens ∧
      Translates depth (suffixedexp · one) e.tokens text fun tok => tok.isSuffix = false := by
  obtain ⟨text, cost, depth, isText, run⟩ := loops
  refine ⟨text, depth + cost + 1, isText, fun steps p rest enough closed kinds => ?_⟩
  obtain ⟨steps, rfl⟩ : ∃ n, steps = n + 1 + cost := ⟨steps - cost - 1, by omega⟩
  obtain ⟨q, left, ran⟩ := run (steps + 1) p rest (by omega) kinds
  have noSuffix : q.token.isSuffix = false := by
    rw [token_eq, left]
    exact closed
  exact ⟨{ q with out := p.out ++ text }, ran.trans (suffixLoop_stops noSuffix), left, rfl⟩

namespace LuaPhrase

theorem translated_condition {test : LuaTest} {e : LuaExpr} (respects : e.Respects) :
    ∃ text, (condition test e).Writes text ∧
      TextOf ((condition test e).whole text) (condition test e).tree.tokens := by
  obtain ⟨text, depth, isText, run⟩ := (e.loops true respects).whole respects
  refine ⟨text, ⟨depth, fun steps enough p rest stops kinds => ?_⟩,
    textOf_form test.sp (entriesOf_value isText)⟩
  obtain ⟨q, ran, left, out⟩ := run steps (p.write test.start) rest enough stops kinds
  exact ⟨q, ran, left, out.trans (List.append_assoc ..)⟩

theorem translated_return {es : LuaExprs} (respects : es.Respects) :
    ∃ text, (return_ es).Writes text ∧ TextOf text (return_ es).tree.tokens := by
  obtain ⟨text, depth, isText, run⟩ := es.translated respects
  have start : GCstr.ofString "(!return " = ch '(' :: (SP.return_.str ++ [ch ' ']) := by decide +kernel
  refine ⟨_, ⟨depth, fun steps enough p rest stops kinds => ?_⟩, textOf_written start isText⟩
  obtain ⟨q, ran, left, out⟩ := run steps (p.write "(!return ") rest enough ⟨stops.1, stops.2.1⟩ kinds
  have starts := es.starts.front rest
  rw [← show (p.write "(!return ").kinds = es.tokens ++ rest from kinds, ← token_eq] at starts
  have goesOn : (!(p.write "(!return ").blockFollow) = true ∧ (p.write "(!return ").token ≠ .semi := by
    constructor
    · unfold blockFollow
      cases isTok : (p.write "(!return ").token <;> rw [isTok] at starts <;> first | rfl | cases starts
    · intro isSemi
      rw [isSemi] at starts
      cases starts
  have noSemi : (q.write ")").token ≠ .semi := by
    rw [token_eq, show (q.write ")").kinds = rest from left]
    exact stops.2.2
  refine ⟨q.write ")", ?_, left, ?_⟩
  · change retstat steps p = _
    rw [retstat]
    simp only [goesOn, ne_eq, not_false_eq_true, and_self, if_true, ran]
    change Except.ok (if (q.write ")").token = .semi then _ else _) = _
    rw [if_neg noSemi]
  · change q.out ++ .ofString ")" = _
    rw [out]
    change p.out ++ .ofString "(!return " ++ text ++ .ofString ")" = _
    simp only [List.append_assoc]
    rfl

/-! ### Assignments -/

/-- The variables behind the first one, and the values, as `P:assignment` writes them. -/
theorem assignment_translates {es : LuaExprs} (respects : es.Respects) :
    (more : List LuaSuffixed) → (∀ e ∈ more, e.Respects) →
      ∃ vars values depth, (∀ text (t : TpTree), TextOf text t.tokens →
          EntriesOf (text ++ vars) (.item t (varEntries more))) ∧
        EntriesOf values (es.entries LuaNumeral.written) ∧
        Translates depth assignment (assignmentTokens more es)
          (vars ++ .ofString ") (" ++ values ++ .ofString "))") fun tok => tok.Ends ∧ tok ≠ .comma
  | [], _ => by
      obtain ⟨values, depth, isValues, run⟩ := es.translated respects
      refine ⟨[], values, depth + 1, fun text t isText => ?_, isValues,
        fun steps p rest enough stops kinds => ?_⟩
      · rw [List.append_nil]
        exact entriesOf_value isText
      obtain ⟨steps, rfl⟩ : ∃ n, steps = n + 1 := ⟨steps - 1, by omega⟩
      have isTok : p.token = .assign := token_of kinds
      obtain ⟨q, ran, left, out⟩ := run steps (p.next.write ") (") rest (by omega) stops
        (next_kinds kinds)
      refine ⟨q.write "))", ?_, left, ?_⟩
      · rw [assignment, if_neg (by simp [isTok]), checknext_ok kinds]
        change (explist steps (p.next.write ") (") >>= _) = _
        rw [ran]
        rfl
      · change q.out ++ .ofString "))" = _
        rw [out]
        change p.out ++ .ofString ") (" ++ values ++ .ofString "))" = _
        simp only [List.append_assoc, List.nil_append]
  | e :: more, respectsMore => by
      obtain ⟨var, depth', isVar, runVar⟩ :=
        (e.loops false (respectsMore e List.mem_cons_self)).whole
      obtain ⟨vars, values, depth, isVars, isValues, run⟩ := assignment_translates respects more
        fun e member => respectsMore e (List.mem_cons_of_mem _ member)
      refine ⟨.ofString " " ++ (var ++ vars), values, max depth depth' + 1, fun text t isText => ?_,
        isValues, fun steps p rest enough stops kinds => ?_⟩
      · rw [← List.append_assoc]
        exact entriesOf_written isText (isVars var _ isVar)
      obtain ⟨steps, rfl⟩ : ∃ n, steps = n + 1 := ⟨steps - 1, by omega⟩
      have kinds : p.kinds = .comma :: (e.tokens ++ (assignmentTokens more es ++ rest)) := by
        rw [show p.kinds = _ from kinds]
        simp [assignmentTokens]
      have isTok : p.token = .comma := token_of kinds
      have noSuffix : (front (assignmentTokens more es ++ rest)).isSuffix = false := by
        cases more <;> rfl
      obtain ⟨q, ranVar, leftVar, outVar⟩ := runVar steps (p.next.write " ") _ (by omega) noSuffix
        (next_kinds kinds)
      obtain ⟨q', ran, left, out⟩ := run steps q rest (by omega) stops leftVar
      refine ⟨q', ?_, left, ?_⟩
      · have ranVar : suffixedexp steps false (p.next.write " ") = .ok q := ranVar
        rw [assignment, if_pos isTok, ranVar]
        exact ran
      · rw [out, outVar]
        change p.out ++ .ofString " " ++ var ++ _ = _
        simp only [List.append_assoc]

theorem translated_assign {first : LuaSuffixed} {more : List LuaSuffixed} {es : LuaExprs}
    (respects : (assign first more es).Respects) :
    ∃ text, (assign first more es).Writes text ∧ TextOf text (assign first more es).tree.tokens := by
  obtain ⟨respectsFirst, respectsMore, respectsValues⟩ := respects
  obtain ⟨var, depth, isVar, runVar⟩ := (first.loops false respectsFirst).whole
  obtain ⟨vars, values, depth', isVars, isValues, run⟩ :=
    assignment_translates respectsValues more respectsMore
  have start : GCstr.ofString "(!massign (" = ch '(' :: (SP.massign.str ++ [ch ' ', ch '(']) := by
    decide +kernel
  have middle : GCstr.ofString ") (" = [ch ')', ch ' ', ch '('] := by decide +kernel
  have close : GCstr.ofString "))" = [ch ')', ch ')'] := by decide +kernel
  have isText := textOf_form .massign (entriesOf_item (textOf_table (isVars var _ isVar))
    (entriesOf_value (textOf_table isValues)))
  refine ⟨_, ⟨max depth depth', fun steps enough p rest stops kinds => ?_⟩, isText⟩
  change p.kinds = first.tokens ++ _ ++ rest at kinds
  rw [List.append_assoc] at kinds
  have goesOn : front (assignmentTokens more es ++ rest) = .assign ∨
      front (assignmentTokens more es ++ rest) = .comma := by
    cases more
    · exact .inl rfl
    · exact .inr rfl
  have noSuffix : (front (assignmentTokens more es ++ rest)).isSuffix = false := by
    rcases goesOn with isTok | isTok <;> rw [isTok] <;> rfl
  obtain ⟨q, ranVar, leftVar, outVar⟩ := runVar steps { p with out := [] } _ (by omega) noSuffix kinds
  obtain ⟨q', ran, left, out⟩ := run steps { q with out := p.out ++ .ofString "(!massign (" ++ q.out } rest
    (by omega) stops leftVar
  refine ⟨q', ?_, left, ?_⟩
  · have ranVar : suffixedexp steps false { p with out := [] } = .ok q := ranVar
    have isTok : q.token = .assign ∨ q.token = .comma := by
      rw [token_eq, show q.kinds = _ from leftVar]
      exact goesOn
    change exprstat steps p = _
    rw [exprstat, ranVar]
    change (if q.token = .assign ∨ q.token = .comma then _ else _) = _
    rw [if_pos isTok, ran]
  · rw [out]
    change p.out ++ .ofString "(!massign (" ++ q.out ++ _ = _
    rw [outVar]
    simp [start, middle, close, LuaPhrase.out]

/-! ### Declarations -/

omit [LuaBody] in
/-- The names, as `P:localstat` writes them. -/
theorem localnames_ok : (more : List LuaName) →
    ∃ names depth, (∀ text (t : TpTree), TextOf text t.tokens →
        EntriesOf (text ++ names) (.item t (nameEntries more))) ∧ (more = [] → names = []) ∧
      ∀ values (first : LuaName) steps (p : LuaP), depth ≤ steps →
        p.kinds = .name first.s :: (more.flatMap (fun n => [.comma, .name n.s]) ++ .assign :: values) →
          ∃ q, localnames steps p = .ok (!more.isEmpty, q) ∧ q.kinds = .assign :: values ∧
            q.out = p.out ++ first.s ++ names
  | [] => by
      refine ⟨[], 1, fun text t isText => ?_, fun _ => rfl, fun values first steps p enough kinds => ?_⟩
      · rw [List.append_nil]
        exact entriesOf_value isText
      obtain ⟨steps, rfl⟩ : ∃ n, steps = n + 1 := ⟨steps - 1, by omega⟩
      have behind : (p.next.emit first.s).kinds = .assign :: values := next_kinds kinds
      refine ⟨p.next.emit first.s, ?_, behind, (List.append_nil _).symm⟩
      rw [localnames, strCheckname_ok kinds]
      change (if (p.next.emit first.s).token = .comma then _ else _) = _
      rw [if_neg (by simp [token_of behind])]
      rfl
  | n :: more => by
      obtain ⟨names, depth, isNames, -, run⟩ := localnames_ok more
      refine ⟨.ofString " " ++ (n.s ++ names), depth + 1, fun text t isText => ?_, nofun,
        fun values first steps p enough kinds => ?_⟩
      · rw [← List.append_assoc]
        exact entriesOf_written isText (isNames n.s _ n.textOf)
      obtain ⟨steps, rfl⟩ : ∃ n, steps = n + 1 := ⟨steps - 1, by omega⟩
      have behind : (p.next.emit first.s).kinds =
          .comma :: .name n.s :: (more.flatMap (fun n => [.comma, .name n.s]) ++ .assign :: values) :=
        next_kinds kinds
      obtain ⟨q, ran, left, out⟩ := run values n steps ((p.next.emit first.s).write " ").next (by omega)
        (next_kinds behind)
      refine ⟨q, ?_, left, ?_⟩
      · rw [localnames, strCheckname_ok kinds]
        change (if (p.next.emit first.s).token = .comma then _ else _) = _
        rw [if_pos (token_of behind), ran]
        rfl
      · rw [out]
        change p.out ++ first.s ++ .ofString " " ++ n.s ++ names = _
        simp only [List.append_assoc]

omit [Tonumber] in
theorem localstat_single {steps : Nat} {p q q' : LuaP} {rest : List LuaToken}
    (names : localnames steps { p with out := [] } = .ok (false, q)) (left : q.kinds = .assign :: rest)
    (values : explist steps (LuaP.write { q.next with out := p.out ++ .ofString "(!define " ++ q.out } " ") =
      .ok q') : localstat steps p = .ok (q'.write ")") := by
  rw [localstat, names]
  change (if q.token = .assign then _ else _) = _
  rw [if_pos (token_of left), localvalues]
  change ((explist steps (LuaP.write { q.next with out := p.out ++ .ofString "(!define " ++ q.out } " ") >>=
    _) >>= _) = _
  rw [values]
  rfl

omit [Tonumber] in
theorem localstat_several {steps : Nat} {p q q' : LuaP} {rest : List LuaToken}
    (names : localnames steps { p with out := [] } = .ok (true, q)) (left : q.kinds = .assign :: rest)
    (values : explist steps (LuaP.write
      { q.next with out := p.out ++ .ofString "(!mdefine (" ++ q.out ++ .ofString ")" } "(") = .ok q') :
    localstat steps p = .ok ((q'.write ")").write ")") := by
  rw [localstat, names]
  change (if q.token = .assign then _ else _) = _
  rw [if_pos (token_of left), localvalues]
  change ((explist steps (LuaP.write
    { q.next with out := p.out ++ .ofString "(!mdefine (" ++ q.out ++ .ofString ")" } "(") >>= _) >>= _) = _
  rw [values]
  rfl

theorem translated_single {first : LuaName} {es : LuaExprs} (respects : es.Respects) :
    ∃ text, (local_ first [] es).Writes text ∧ TextOf text (local_ first [] es).tree.tokens := by
  obtain ⟨values, depth, isValues, run⟩ := es.translated respects
  obtain ⟨names, depth', -, noNames, declares⟩ := localnames_ok []
  have start : GCstr.ofString "(!define " = ch '(' :: (SP.define.str ++ [ch ' ']) := by decide +kernel
  have blank := And.intro blank_bytes rparen_bytes
  have isText := textOf_form .define
    (entriesOf_item (v := .atom (.name first.s)) first.textOf isValues)
  refine ⟨_, ⟨max depth depth', fun steps enough p rest stops kinds => ?_⟩, isText⟩
  obtain ⟨q, named, left, out⟩ := declares (es.tokens ++ rest) first steps { p with out := [] }
    (by omega) kinds
  obtain ⟨q', ran, left', out'⟩ := run steps
    (LuaP.write { q.next with out := p.out ++ .ofString "(!define " ++ q.out } " ") rest (by omega) stops
    (next_kinds left)
  refine ⟨q'.write ")", localstat_single named left ran, left', ?_⟩
  change q'.out ++ .ofString ")" = _
  rw [out']
  change p.out ++ .ofString "(!define " ++ q.out ++ .ofString " " ++ values ++ .ofString ")" = _
  rw [out, noNames rfl]
  simp [start, blank, LuaPhrase.out]

theorem translated_several {first second : LuaName} {more : List LuaName} {es : LuaExprs}
    (respects : es.Respects) :
    ∃ text, (local_ first (second :: more) es).Writes text ∧
      TextOf text (local_ first (second :: more) es).tree.tokens := by
  obtain ⟨values, depth, isValues, run⟩ := es.translated respects
  obtain ⟨names, depth', isNames, -, declares⟩ := localnames_ok (second :: more)
  have start : GCstr.ofString "(!mdefine (" = ch '(' :: (SP.mdefine.str ++ [ch ' ', ch '(']) := by
    decide +kernel
  have paren := And.intro lparen_bytes rparen_bytes
  have isText := textOf_form .mdefine
    (entriesOf_touching (isNames first.s (.atom (.name first.s)) first.textOf)
      (entriesOf_value (textOf_table isValues)))
  refine ⟨_, ⟨max depth depth', fun steps enough p rest stops kinds => ?_⟩, isText⟩
  have kinds : p.kinds = .name first.s ::
      ((second :: more).flatMap (fun n => [.comma, .name n.s]) ++ .assign :: (es.tokens ++ rest)) := by
    rw [show p.kinds = _ from kinds]
    simp [tokens, namesTokens]
  obtain ⟨q, named, left, out⟩ := declares (es.tokens ++ rest) first steps { p with out := [] }
    (by omega) kinds
  obtain ⟨q', ran, left', out'⟩ := run steps
    (LuaP.write { q.next with out := p.out ++ .ofString "(!mdefine (" ++ q.out ++ .ofString ")" } "(") rest
    (by omega) stops (next_kinds left)
  refine ⟨(q'.write ")").write ")", localstat_several named left ran, left', ?_⟩
  change q'.out ++ .ofString ")" ++ .ofString ")" = _
  rw [out']
  change p.out ++ .ofString "(!mdefine (" ++ q.out ++ .ofString ")" ++ .ofString "(" ++ values ++
    .ofString ")" ++ .ofString ")" = _
  rw [out]
  simp [start, paren, LuaPhrase.out]

/-- The rules write a text of the tree. -/
theorem translated (phrase : LuaPhrase) (respects : phrase.Respects) :
    ∃ text, phrase.Writes text ∧ TextOf (phrase.whole text) phrase.tree.tokens := by
  cases phrase with
  | expr one e =>
      obtain ⟨text, depth, isText, run⟩ := (e.loops one respects).translates
      exact ⟨text, ⟨depth, fun steps enough p rest stops kinds =>
        run 0 (e.admissible_of_above respects e.above_zero) steps p rest enough stops kinds⟩, isText⟩
  | return_ es => exact translated_return respects
  | local_ first more es =>
      cases more with
      | nil => exact translated_single respects
      | cons second more => exact translated_several respects
  | assign first more es => exact translated_assign respects
  | condition test e => exact translated_condition respects

end LuaPhrase

end TvmJit
