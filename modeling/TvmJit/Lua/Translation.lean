import TvmJit.Lua.Expression

/-! The text that `P:expr` writes for an expression, and when it is read as the tree of the
expression. -/

namespace TvmJit

open Lexer LuaP

/-! ## Leaves -/

/-- A byte that a name may have anywhere. -/
def isNameByte (b : UInt8) : Bool := !endsName (some b) && b != ch '\\'

theorem numeralText_bytes {hex afterExpo : Bool} {text : GCstr}
    (whole : numeralText hex afterExpo text = (text, [])) : ∀ b ∈ text, isNameByte b = true := by
  induction text generalizing afterExpo with
  | nil => simp
  | cons b text induction =>
      rw [numeralText] at whole
      have expo (found : find (expoSet hex) (some b) = true) : isNameByte b = true := by
        cases hex <;> exact find_forall (expoSet_bytes _) found (by decide)
      have other (found : (afterExpo && find sign (some b) || find xdigit (some b) || b == ch '.') =
          true) : isNameByte b = true := by
        simp only [Bool.or_eq_true, Bool.and_eq_true, beq_iff_eq] at found
        rcases found with (⟨-, isSign⟩ | digit) | rfl
        · exact find_forall sign_bytes isSign (by decide)
        · exact find_forall xdigit_bytes digit (by decide)
        · decide
      split at whole
      · next isExpo =>
          have rest : numeralText hex true text = (text, []) := by simpa [Prod.ext_iff] using whole
          exact List.forall_mem_cons.mpr ⟨expo isExpo, induction rest⟩
      · split at whole
        · next isOther =>
            have rest : numeralText hex false text = (text, []) := by simpa [Prod.ext_iff] using whole
            exact List.forall_mem_cons.mpr ⟨other isOther, induction rest⟩
        · simp at whole

theorem bodyText_bytes {b : UInt8} {rest : GCstr} (whole : bodyText b rest = (b :: rest, [])) :
    ∀ c ∈ rest, isNameByte c = true := by
  cases rest with
  | nil => simp
  | cons x rest =>
      rw [bodyText] at whole
      split at whole
      · next isHex =>
          have digits : numeralText true false rest = (rest, []) := by
            simpa [Prod.ext_iff] using whole
          have letter : (x ||| 0x20) = ch 'x' → isNameByte x = true :=
            byte_forall x (by decide +kernel)
          exact List.forall_mem_cons.mpr ⟨letter isHex.2, numeralText_bytes digits⟩
      · have digits : numeralText false false (x :: rest) = (x :: rest, []) := by
          simpa [Prod.ext_iff] using whole
        exact numeralText_bytes digits

variable [Tonumber]

theorem LuaNumeral.textOf (t : LuaNumeral) : TextOf t.text [t.written] := by
  obtain ⟨text, value, isNumeral, isNumber⟩ := t
  unfold written
  cases text with
  | nil => cases isNumeral
  | cons b rest =>
      rw [isLuaNumeral.eq_def] at isNumeral
      dsimp only at isNumeral
      by_cases isDot : b = ch '.'
      · subst isDot
        rw [if_pos rfl] at isNumeral
        rw [if_pos List.head?_cons]
        cases rest with
        | nil => cases isNumeral
        | cons c rest =>
            simp only [Bool.and_eq_true, beq_iff_eq, decide_eq_true_eq] at isNumeral
            obtain ⟨⟨low, high⟩, whole⟩ := isNumeral
            have digit : ch '0' ≤ c ∧ c ≤ ch '9' → isNameByte c = true :=
              byte_forall c (by decide +kernel)
            have dot : startsName (some (ch '.')) = true ∧ isNameByte (ch '.') = true := by
              decide +kernel
            have bytes := bodyText_bytes whole
            apply textOf_name
            rw [P.plainName, Bool.and_eq_true, List.all_eq_true]
            refine ⟨dot.1, fun d member => ?_⟩
            rcases List.mem_cons.mp member with rfl | member
            · exact dot.2
            · rcases List.mem_cons.mp member with rfl | member
              · exact digit ⟨low, high⟩
              · exact bytes d member
      · rw [if_neg isDot] at isNumeral
        rw [if_neg (by rw [List.head?_cons]; exact fun same => isDot (Option.some.inj same))]
        simp only [Bool.and_eq_true, beq_iff_eq, decide_eq_true_eq] at isNumeral
        obtain ⟨⟨low, high⟩, whole⟩ := isNumeral
        have digit : ch '0' ≤ b ∧ b ≤ ch '9' → startsNumber (some b) = true ∧
            find sign (some b) = false ∧ startsNumeral b = true :=
          byte_forall b (by decide +kernel)
        obtain ⟨starts, notSign, startsNumeral⟩ := digit ⟨low, high⟩
        have isWhole : P.wholeNumeral (b :: rest) = true := by
          rw [P.wholeNumeral, List.head?_cons, starts, unsigned, List.head?_cons, notSign,
            if_neg Bool.false_ne_true]
          simp [startsNumeral, whole]
        rintro tail ⟨d, more, rfl, isEnd⟩
        exact .cons (P.reads_number isWhole isNumber isEnd) (.nil _)

omit [Tonumber] in
theorem LuaName.plain (n : LuaName) : P.plainName n.s = true := by
  obtain ⟨s, isName⟩ := n
  cases s with
  | nil => cases isName
  | cons b rest =>
      have alpha : isAlpha b = true → startsName (some b) = true ∧ isNameByte b = true :=
        byte_forall b (by decide +kernel)
      rw [isLuaName, Bool.and_eq_true, List.all_eq_true] at isName
      rw [P.plainName, Bool.and_eq_true, List.all_eq_true]
      refine ⟨(alpha isName.1).1, fun c member => ?_⟩
      rcases List.mem_cons.mp member with rfl | member
      · exact (alpha isName.1).2
      · have alnum : isAlnum c = true → isNameByte c = true := byte_forall c (by decide +kernel)
        exact alnum (isName.2 c member)

theorem LuaName.textOf (n : LuaName) : TextOf n.s [.name n.s] := textOf_name n.plain

theorem LuaName.textOf_quoted (n : LuaName) : TextOf n.quoted [.string n.s] :=
  TvmJit.textOf_quoted n.isQuoted

theorem LuaString.textOf (s : LuaString) : TextOf s.quoted [.string s.s] :=
  TvmJit.textOf_quoted s.isQuoted

/-- The text of a form as it is written: the start, the entries, a parenthesis. -/
theorem textOf_written {sp : SP} {start : String} {text : GCstr} {entries : TpEntries}
    (starts : GCstr.ofString start = ch '(' :: (sp.str ++ [ch ' '])) (isText : EntriesOf text entries) :
    TextOf (.ofString start ++ text ++ .ofString ")") (TpTree.form sp entries).tokens := by
  have shape : GCstr.ofString start ++ text ++ GCstr.ofString ")" =
      ch '(' :: (sp.str ++ ch ' ' :: text ++ [ch ')']) := by
    simp [starts, rparen_bytes]
  rw [shape]
  exact textOf_form sp isText

theorem entriesOf_written {text more : GCstr} {v : TpTree} {rest : TpEntries}
    (isText : TextOf text v.tokens) (isMore : EntriesOf more rest) :
    EntriesOf (text ++ .ofString " " ++ more) (.item v rest) := by
  have shape : text ++ GCstr.ofString " " ++ more = text ++ ch ' ' :: more := by simp [blank_bytes]
  rw [shape]
  exact entriesOf_item isText isMore

/-! ## Suffixes -/

omit [Tonumber] in
/-- The name of a form for a call of a function or a method. -/
theorem call_start (one : Bool) :
    GCstr.ofString (if one then "(!call1 " else "(!call ") =
        ch '(' :: ((if one then SP.call1 else SP.call).str ++ [ch ' ']) ∧
      GCstr.ofString (if one then "(!callmeth1 " else "(!callmeth ") =
        ch '(' :: ((if one then SP.callmeth1 else SP.callmeth).str ++ [ch ' ']) := by
  cases one <;> decide +kernel

variable [LuaBody]

/-- `P:expr` writes the expression where no token behind goes on with it. -/
theorem LuaExpr.Loops.whole {one : Bool} {e : LuaExpr} (loops : e.Loops one) (respects : e.Respects) :
    ∃ text depth, TextOf text (e.tree LuaNumeral.written one).tokens ∧
      Translates depth (LuaP.expr · one 0) e.tokens text LuaToken.Ends := by
  obtain ⟨text, depth, isText, run⟩ := loops.translates
  refine ⟨text, depth, isText, fun steps p rest enough ends kinds => ?_⟩
  exact run 0 (e.admissible_of_above respects e.above_zero) steps p rest enough
    ⟨ends.bindsAtMost 0, e.closedBefore_of_ends ends⟩ kinds

/-- A key in brackets. -/
theorem yindex_translates {k : LuaExpr} (loops : k.Loops true) (respects : k.Respects) :
    ∃ text depth, TextOf text (k.tree LuaNumeral.written true).tokens ∧
      Translates depth yindex (.lbracket :: (k.tokens ++ [.rbracket])) text fun _ => True := by
  obtain ⟨text, depth, isText, run⟩ := loops.whole respects
  refine ⟨text, depth + 1, isText, fun steps p rest enough _ kinds => ?_⟩
  obtain ⟨steps, rfl⟩ : ∃ n, steps = n + 1 := ⟨steps - 1, by omega⟩
  rw [List.cons_append, List.append_assoc] at kinds
  obtain ⟨q, ran, left, out⟩ := run steps p.next (.rbracket :: rest) (by omega) ⟨rfl, rfl⟩
    (next_kinds kinds)
  refine ⟨q.next, ?_, next_kinds left, out⟩
  have ran : LuaP.expr steps true 0 p.next = .ok q := ran
  rw [yindex, ran]
  exact checknext_ok left

/-- `P:funcargs` writes the arguments. -/
def LuaArgs.Translated (args : LuaArgs) : Prop :=
  ∃ text depth, EntriesOf text (args.entries LuaNumeral.written) ∧
    ∀ line, Translates depth (funcargs · line) args.tokens text fun _ => True

namespace LuaSuffixed

variable {one : Bool} {e e' : LuaSuffixed}

/-- `P:suffixedexp` comes to its loop with the text of the expression. -/
def Loops (one : Bool) (e : LuaSuffixed) : Prop :=
  ∃ text cost depth, TextOf text (e.tree LuaNumeral.written one).tokens ∧
    ∀ steps (p : LuaP) rest, depth ≤ steps → p.kinds = e.tokens ++ rest →
      ∃ q, q.kinds = rest ∧
        suffixedexp (steps + cost) one p = suffixLoop steps one p.linenumber p.out text q

theorem loops_of_primary {text : GCstr} (depth : Nat)
    (isText : TextOf text (e.tree LuaNumeral.written one).tokens)
    (run : Translates depth primaryexpr e.tokens text fun _ => True) : e.Loops one := by
  refine ⟨text, 1, depth, isText, fun steps p rest enough kinds => ?_⟩
  obtain ⟨q, ran, left, out⟩ := run steps { p with out := [] } rest enough trivial kinds
  refine ⟨q, left, ?_⟩
  rw [suffixedexp, ran]
  change suffixLoop steps one p.linenumber p.out q.out q = _
  rw [out]
  rfl

/-- The loop of `P:suffixedexp` takes one more suffix. -/
theorem Loops.suffix {toks : List LuaToken} (loops : e.Loops one) (shape : e'.tokens = e.tokens ++ toks)
    (step : ∀ text, TextOf text (e.tree LuaNumeral.written one).tokens → ∃ text' depth,
      TextOf text' (e'.tree LuaNumeral.written one).tokens ∧
        ∀ steps line sav (q : LuaP) rest, depth ≤ steps → q.kinds = toks ++ rest → ∃ q', q'.kinds = rest ∧
          suffixLoop (steps + 1) one line sav text q = suffixLoop steps one line sav text' q') :
    e'.Loops one := by
  obtain ⟨text, cost, depth, isText, run⟩ := loops
  obtain ⟨text', depth', isText', go⟩ := step text isText
  refine ⟨text', cost + 1, max depth depth', isText', fun steps p rest enough kinds => ?_⟩
  rw [shape, List.append_assoc] at kinds
  obtain ⟨q, left, ran⟩ := run (steps + 1) p (toks ++ rest) (by omega) kinds
  obtain ⟨q', left', went⟩ := go steps p.linenumber p.out q rest (by omega) left
  refine ⟨q', left', ?_⟩
  rw [show steps + (cost + 1) = steps + 1 + cost by omega, ran, went]

theorem loops_name (n : LuaName) : (name n).Loops one := by
  refine loops_of_primary 1 n.textOf fun steps p rest enough _ kinds => ?_
  obtain ⟨steps, rfl⟩ : ∃ n, steps = n + 1 := ⟨steps - 1, by omega⟩
  refine ⟨p.next.emit n.s, ?_, next_kinds kinds, rfl⟩
  rw [primaryexpr, token_of kinds]

theorem loops_paren {e : LuaExpr} (loops : e.Loops true) (respects : e.Respects) :
    (paren e).Loops one := by
  obtain ⟨text, depth, isText, run⟩ := loops.whole respects
  refine loops_of_primary (depth + 1) isText fun steps p rest enough _ kinds => ?_
  obtain ⟨steps, rfl⟩ : ∃ n, steps = n + 1 := ⟨steps - 1, by omega⟩
  rw [tokens, List.cons_append, List.append_assoc] at kinds
  obtain ⟨q, ran, left, out⟩ := run steps p.next (.rparen :: rest) (by omega) ⟨rfl, rfl⟩
    (next_kinds kinds)
  refine ⟨q.next, ?_, next_kinds left, out⟩
  have ran : LuaP.expr steps true 0 p.next = .ok q := ran
  rw [primaryexpr, token_of kinds]
  change (LuaP.expr steps true 0 p.next >>= _) = _
  rw [ran]
  exact checkMatch_ok left ..

theorem loops_dot {e : LuaSuffixed} (loops : e.Loops one) (n : LuaName) : (dot e n).Loops one := by
  refine loops.suffix rfl fun text isText => ?_
  have start : GCstr.ofString "(!index " = ch '(' :: (SP.index.str ++ [ch ' ']) := by decide +kernel
  refine ⟨_, 0, textOf_written start (entriesOf_written isText (entriesOf_value n.textOf_quoted)), ?_⟩
  intro steps line sav q rest _ kinds
  have named : q.next.kinds = .name n.s :: rest := next_kinds kinds
  refine ⟨q.next.next, next_kinds named, ?_⟩
  rw [suffixLoop, token_of kinds]
  change (q.fieldsel >>= _) = _
  rw [fieldsel_ok n.isQuoted kinds]
  simp only [List.append_assoc]
  rfl

theorem loops_index {e : LuaSuffixed} {k : LuaExpr} (loops : e.Loops one) (loopsKey : k.Loops true)
    (respects : k.Respects) : (index e k).Loops one := by
  obtain ⟨key, depth, isKey, run⟩ := yindex_translates loopsKey respects
  refine loops.suffix rfl fun text isText => ?_
  have start : GCstr.ofString "(!index " = ch '(' :: (SP.index.str ++ [ch ' ']) := by decide +kernel
  refine ⟨_, depth, textOf_written start (entriesOf_written isText (entriesOf_value isKey)), ?_⟩
  intro steps line sav q rest enough kinds
  obtain ⟨q', ran, left, out⟩ := run steps
    { q with out := .ofString "(!index " ++ text ++ .ofString " " } rest enough trivial kinds
  refine ⟨q'.write ")", left, ?_⟩
  rw [suffixLoop, token_of kinds]
  change (yindex steps { q with out := .ofString "(!index " ++ text ++ .ofString " " } >>= _) = _
  rw [ran]
  change suffixLoop steps one line sav (q'.out ++ .ofString ")") (q'.write ")") = _
  rw [out]
  simp only [List.append_assoc]

theorem loops_call {e : LuaSuffixed} {args : LuaArgs} (loops : e.Loops one)
    (translated : args.Translated) : (call e args).Loops one := by
  obtain ⟨inside, depth, isInside, run⟩ := translated
  refine loops.suffix rfl fun text isText => ?_
  refine ⟨_, depth, textOf_written (call_start one).1 (entriesOf_written isText isInside), ?_⟩
  intro steps line sav q rest enough kinds
  obtain ⟨q', ran, left, out⟩ := run line steps
    { q with out := .ofString (if one then "(!call1 " else "(!call ") ++ text ++ .ofString " " } rest enough
    trivial kinds
  refine ⟨q'.write ")", left, ?_⟩
  have starts : q.token = .lparen ∨ q.token = .lbrace ∨ ∃ s, q.token = .string s := by
    obtain ⟨tok, more, shape, kind⟩ := args.first
    rw [shape] at kinds
    rw [token_of kinds]
    exact kind
  have step : suffixLoop (steps + 1) one line sav text q = (do
      let p ← funcargs steps line
        { q with out := .ofString (if one then "(!call1 " else "(!call ") ++ text ++ .ofString " " }
      suffixLoop steps one line sav (p.write ")").out (p.write ")")) := by
    rw [suffixLoop]
    rcases starts with isTok | isTok | ⟨s, isTok⟩ <;> rw [isTok]
  rw [step]
  have ran : funcargs steps line
      { q with out := .ofString (if one then "(!call1 " else "(!call ") ++ text ++ .ofString " " } =
        .ok q' := ran
  rw [ran]
  change suffixLoop steps one line sav (q'.out ++ .ofString ")") (q'.write ")") = _
  rw [out]
  simp only [List.append_assoc]

theorem loops_method {e : LuaSuffixed} {args : LuaArgs} (loops : e.Loops one) (n : LuaName)
    (translated : args.Translated) : (method e n args).Loops one := by
  obtain ⟨inside, depth, isInside, run⟩ := translated
  refine loops.suffix rfl fun text isText => ?_
  refine ⟨_, depth, textOf_written (call_start one).2
    (entriesOf_written isText (entriesOf_written n.textOf isInside)), ?_⟩
  intro steps line sav q rest enough kinds
  have named : q.next.kinds = .name n.s :: (args.tokens ++ rest) := next_kinds kinds
  obtain ⟨q', ran, left, out⟩ := run line steps
    { q.next.next with
      out := .ofString (if one then "(!callmeth1 " else "(!callmeth ") ++ text ++ .ofString " " ++ n.s ++
        .ofString " " } rest enough trivial (next_kinds named)
  refine ⟨q'.write ")", left, ?_⟩
  rw [suffixLoop, token_of kinds]
  change (q.next.strCheckname >>= _) = _
  rw [strCheckname_ok named]
  change (funcargs steps line _ >>= _) = _
  have ran : funcargs steps line _ = .ok q' := ran
  rw [ran]
  change suffixLoop steps one line sav (q'.out ++ .ofString ")") (q'.write ")") = _
  rw [out]
  simp only [List.append_assoc]

end LuaSuffixed

/-! ## Lists -/

/-- `P:explist` writes the expressions. -/
def LuaExprs.Translated (es : LuaExprs) : Prop :=
  ∃ text depth, EntriesOf text (es.entries LuaNumeral.written) ∧
    Translates depth explist es.tokens text fun tok => tok.Ends ∧ tok ≠ .comma

/-- The loop of `P:constructor` writes the fields. -/
def LuaFields.Translated (fields : LuaFields) : Prop :=
  ∃ text depth, EntriesOf text (fields.entries LuaNumeral.written) ∧
    Translates depth LuaP.fields fields.tokens text (· = .rbrace)

/-- `P:field` writes the field. -/
def LuaField.Translated (f : LuaField) : Prop :=
  ∃ text toks depth, TextOf text toks ∧
    (∀ rest, (f.entry LuaNumeral.written rest).tokens = toks ++ rest.tokens) ∧
    Translates depth field f.tokens text fun tok => tok = .comma ∨ tok = .semi ∨ tok = .rbrace

namespace LuaExprs

variable {e : LuaExpr}

theorem translated_last (loops : e.Loops false) (respects : e.Respects) : (last e).Translated := by
  obtain ⟨text, depth, isText, run⟩ := loops.whole respects
  refine ⟨text, depth + 1, entriesOf_value isText, fun steps p rest enough stops kinds => ?_⟩
  obtain ⟨steps, rfl⟩ : ∃ n, steps = n + 1 := ⟨steps - 1, by omega⟩
  obtain ⟨q, ran, left, out⟩ := run steps p rest (by omega) stops.1 kinds
  refine ⟨q, ?_, left, out⟩
  have ran : LuaP.expr steps false 0 p = .ok q := ran
  have isEnd : q.token = front rest := by rw [token_eq, show q.kinds = rest from left]
  rw [explist, ran]
  change (if q.token = .comma then _ else _) = _
  rw [if_neg (isEnd ▸ stops.2)]
  rfl

theorem translated_more {rest : LuaExprs} (loops : e.Loops false) (respects : e.Respects)
    (translated : rest.Translated) : (more e rest).Translated := by
  obtain ⟨text, depth, isText, run⟩ := loops.whole respects
  obtain ⟨text', depth', isText', run'⟩ := translated
  refine ⟨_, max depth depth' + 1, entriesOf_written isText isText', fun steps p left enough stops kinds => ?_⟩
  obtain ⟨steps, rfl⟩ : ∃ n, steps = n + 1 := ⟨steps - 1, by omega⟩
  rw [tokens, List.append_assoc] at kinds
  obtain ⟨q, ran, behind, out⟩ := run steps p (.comma :: (rest.tokens ++ left)) (by omega) ⟨rfl, rfl⟩ kinds
  obtain ⟨q', ran', behind', out'⟩ := run' steps (q.next.write " ") left (by omega) stops
    (next_kinds behind)
  refine ⟨q', ?_, behind', ?_⟩
  · have ran : LuaP.expr steps false 0 p = .ok q := ran
    rw [explist, ran]
    change (if q.token = .comma then _ else _) = _
    rw [if_pos (token_of behind), ran']
  · rw [out']
    change q.out ++ .ofString " " ++ text' = _
    rw [out]
    simp only [List.append_assoc]

end LuaExprs

namespace LuaArgs

theorem translated_none : none.Translated := by
  refine ⟨[], 1, entriesOf_nil, fun line steps p rest enough _ kinds => ?_⟩
  obtain ⟨steps, rfl⟩ : ∃ n, steps = n + 1 := ⟨steps - 1, by omega⟩
  have behind : p.next.kinds = .rparen :: rest := next_kinds kinds
  refine ⟨p.next.next, ?_, next_kinds behind, (List.append_nil _).symm⟩
  dsimp only
  rw [funcargs, token_of kinds]
  simp only [token_of behind, ne_eq, not_true_eq_false, if_false]
  exact checkMatch_ok behind ..

theorem translated_list {es : LuaExprs} (translated : es.Translated) : (list es).Translated := by
  obtain ⟨text, depth, isText, run⟩ := translated
  refine ⟨text, depth + 1, isText, fun line steps p rest enough _ kinds => ?_⟩
  obtain ⟨steps, rfl⟩ : ∃ n, steps = n + 1 := ⟨steps - 1, by omega⟩
  rw [tokens, List.cons_append, List.append_assoc] at kinds
  have behind : p.next.kinds = es.tokens ++ .rparen :: rest := next_kinds kinds
  obtain ⟨q, ran, left, out⟩ := run steps p.next (.rparen :: rest) (by omega) ⟨⟨rfl, rfl⟩, nofun⟩ behind
  have notEnd : p.next.token ≠ .rparen := by
    intro isEnd
    have starts := es.starts.front (.rparen :: rest)
    rw [← behind, ← token_eq, isEnd] at starts
    cases starts
  refine ⟨q.next, ?_, next_kinds left, out⟩
  dsimp only
  rw [funcargs, token_of kinds]
  simp only [notEnd, ne_eq, not_false_eq_true, if_true, ran]
  exact checkMatch_ok left ..

theorem translated_table {fields : LuaFields} (translated : fields.Translated) :
    (table fields).Translated := by
  obtain ⟨text, depth, isText, run⟩ := translated
  refine ⟨_, depth + 2, entriesOf_value (textOf_table isText), fun line steps p rest enough _ kinds => ?_⟩
  obtain ⟨steps, rfl⟩ : ∃ n, steps = n + 1 := ⟨steps - 1, by omega⟩
  have whole : Translates (depth + 1) constructor _ _ fun _ => True := constructor_translates run
  obtain ⟨q, ran, left, out⟩ := whole steps p rest (by omega) trivial kinds
  refine ⟨q, ?_, left, out⟩
  dsimp only
  rw [funcargs, token_of kinds, ran]

theorem translated_string (s : LuaString) : (string s).Translated := by
  refine ⟨s.quoted, 1, entriesOf_value s.textOf, fun line steps p rest enough _ kinds => ?_⟩
  obtain ⟨steps, rfl⟩ : ∃ n, steps = n + 1 := ⟨steps - 1, by omega⟩
  refine ⟨(p.emit s.quoted).next, ?_, next_kinds kinds, rfl⟩
  dsimp only
  rw [funcargs, token_of kinds]
  change (quote s.s >>= _) = _
  rw [quote_ok s.isQuoted]
  rfl

end LuaArgs

namespace LuaField

variable {e k : LuaExpr} {toks : List LuaToken} {text : GCstr} {depth : Nat}

omit [Tonumber] [LuaBody] in
/-- What stands behind a field. -/
theorem ends_of_stops {tok : LuaToken} (stops : tok = .comma ∨ tok = .semi ∨ tok = .rbrace) :
    tok.Ends ∧ tok ≠ .assign := by
  rcases stops with rfl | rfl | rfl <;> exact ⟨⟨rfl, rfl⟩, by simp⟩

omit [Tonumber] in
/-- A field that starts like an expression is one. -/
theorem field_of_starts (steps : Nat) {p : LuaP} {toks rest : List LuaToken} (starts : StartsExpr toks)
    (behind : front rest ≠ .assign) (kinds : p.kinds = toks ++ rest) :
    ∃ p' : LuaP, p'.kinds = p.kinds ∧ p'.out = p.out ∧ field (steps + 1) p = LuaP.expr steps false 0 p' := by
  cases toks with
  | nil => cases starts
  | cons tok more =>
      have isTok : p.token = tok := token_of kinds
      rw [field, isTok]
      cases tok with
      | name s =>
          have ahead : p.next.token ≠ .assign := by
            rw [token_eq, next_kinds kinds]
            cases more with
            | nil => exact behind
            | cons second more => exact fun same => starts.2 s rfl (congrArg some same)
          refine ⟨{ p with linenumber := p.next.linenumber }, rfl, rfl, ?_⟩
          exact if_pos ahead
      | lbracket => cases starts.1
      | _ => exact ⟨p, rfl, rfl, rfl⟩

theorem translated_item (loops : e.Loops false) (respects : e.Respects) : (item e).Translated := by
  obtain ⟨text, depth, isText, run⟩ := loops.whole respects
  refine ⟨text, _, depth + 1, isText, fun rest => rfl, fun steps p rest enough stops kinds => ?_⟩
  obtain ⟨steps, rfl⟩ : ∃ n, steps = n + 1 := ⟨steps - 1, by omega⟩
  obtain ⟨ends, notAssign⟩ := ends_of_stops stops
  obtain ⟨p', same, sameOut, isExpr⟩ := field_of_starts steps e.starts notAssign kinds
  obtain ⟨q, ran, left, out⟩ := run steps p' rest (by omega) ends (same.trans kinds)
  exact ⟨q, isExpr.trans ran, left, by rw [out, sameOut]⟩

/-- `P:recfield` behind its key. -/
theorem value_translates (loops : e.Loops true) (respects : e.Respects) :
    ∃ text depth, TextOf text (e.tree LuaNumeral.written true).tokens ∧
      ∀ steps (p : LuaP) rest, depth ≤ steps → (front rest).Ends → p.kinds = .assign :: (e.tokens ++ rest) →
        ∃ q, (do LuaP.expr steps true 0 ((← p.checknext .assign).write ": ")) = .ok q ∧ q.kinds = rest ∧
          q.out = p.out ++ ch ':' :: ch ' ' :: text := by
  obtain ⟨text, depth, isText, run⟩ := loops.whole respects
  refine ⟨text, depth, isText, fun steps p rest enough ends kinds => ?_⟩
  obtain ⟨q, ran, left, out⟩ := run steps (p.next.write ": ") rest enough ends (next_kinds kinds)
  have colon : GCstr.ofString ": " = [ch ':', ch ' '] := by decide +kernel
  refine ⟨q, ?_, left, ?_⟩
  · rw [checknext_ok kinds]
    exact ran
  · rw [out]
    change p.out ++ GCstr.ofString ": " ++ text = _
    rw [colon, List.append_assoc]
    rfl

theorem translated_named (n : LuaName) (loops : e.Loops true) (respects : e.Respects) :
    (named n e).Translated := by
  obtain ⟨text, depth, isText, run⟩ := value_translates loops respects
  refine ⟨_, _, depth + 2, textOf_pair (k := .atom (.string n.s)) n.textOf_quoted isText,
    fun rest => by simp [entry, TpEntries.tokens], fun steps p rest enough stops kinds => ?_⟩
  obtain ⟨steps, rfl⟩ : ∃ n, steps = n + 2 := ⟨steps - 2, by omega⟩
  have behind : p.next.kinds = .assign :: (e.tokens ++ rest) := next_kinds kinds
  let p' : LuaP := { p with linenumber := p.next.linenumber }
  obtain ⟨q, ran, left, out⟩ := run steps (p'.next.emit n.quoted) rest (by omega)
    (ends_of_stops stops).1 behind
  refine ⟨q, ?_, left, by rw [out]; exact List.append_assoc ..⟩
  have isName : p'.token = .name n.s := token_of kinds
  have ahead : p.lookahead = (.assign, p') := by rw [lookahead, token_of behind]
  have keyed : field (steps + 2) p = recfield (steps + 1) p' := by
    rw [field, token_of kinds]
    dsimp only
    rw [ahead]
    exact if_neg (not_not.mpr rfl)
  rw [keyed, recfield, isName]
  change ((do let s ← quote n.s; return p'.next.emit s) >>= _) = _
  rw [quote_ok n.isQuoted]
  exact ran

theorem translated_keyed (loopsKey : k.Loops true) (respectsKey : k.Respects) (loops : e.Loops true)
    (respects : e.Respects) : (keyed k e).Translated := by
  obtain ⟨key, depth, isKey, runKey⟩ := yindex_translates loopsKey respectsKey
  obtain ⟨text, depth', isText, run⟩ := value_translates loops respects
  refine ⟨_, _, max depth depth' + 2, textOf_pair isKey isText,
    fun rest => by simp [entry, TpEntries.tokens], fun steps p rest enough stops kinds => ?_⟩
  obtain ⟨steps, rfl⟩ : ∃ n, steps = n + 2 := ⟨steps - 2, by omega⟩
  rw [tokens, List.cons_append, List.append_assoc] at kinds
  have isBracket : p.token = .lbracket := token_of kinds
  obtain ⟨q, ranKey, leftKey, outKey⟩ := runKey steps p (.assign :: (e.tokens ++ rest)) (by omega) trivial
    (by rw [List.cons_append, List.append_assoc]; exact kinds)
  obtain ⟨q', ran, left, out⟩ := run steps q rest (by omega) (ends_of_stops stops).1 leftKey
  refine ⟨q', ?_, left, by rw [out, outKey]; exact List.append_assoc ..⟩
  have isKeyed : field (steps + 2) p = recfield (steps + 1) p := by
    rw [field, isBracket]
  rw [isKeyed, recfield, isBracket]
  change (yindex steps p >>= _) = _
  rw [ranKey]
  exact ran

end LuaField

end TvmJit
